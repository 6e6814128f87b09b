import GoiKey.Lib.Hex
import GoiKey.Lib.Fields
import GoiKey.Lib.Members
import GoiKey.Lib.Nested
import GoiKey.Lib.Reads
import GoiKey.Lib.Hoare
import GoiKey.Lib.Simulates
import GoiKey.Lib.CborGrammar
import GoiKey.Lib.CborTree
import GoiKey.Lib.CborOrder
import GoiKey.Lib.AuthenticatorData
import GoiKey.Lib.PowerLoss
import GoiKey.Lib.Trace
import GoiKey.Lib.Window
import GoiKey.Lib.Clocked
import GoiKey.Lib.Limbs
import GoiKey.Lib.Montgomery
import GoiKey.Lib.Loops
import GoiKey.Lib.LoopPrograms
import GoiKey.Lib.SyncRam
import GoiKey.Lib.BitGroups
import GoiKey.Lib.Ntt
import GoiKey.Lib.IndexRing
import GoiKey.Model.Text
import GoiKey.Model.Cbor
import GoiKey.Model.CborEncoder
import GoiKey.Model.Requests
import GoiKey.Model.Environment
import GoiKey.Model.Crypto
import GoiKey.Model.Device
import GoiKey.Model.Storage
import GoiKey.Model.RecordLists
import GoiKey.Model.FileOps
import GoiKey.Model.Verification
import GoiKey.Model.MakeCredential
import GoiKey.Model.Assertion
import GoiKey.Model.ClientPin
import GoiKey.Model.U2f
import GoiKey.Model.Management
import GoiKey.Model.Vault
import GoiKey.Model.Backup
import GoiKey.Model.Serial
import GoiKey.Model.Cli
import GoiKey.Model.Line
import GoiKey.Model.Step
import GoiKey.Model.Uptime
import GoiKey.Model.Bench
import GoiKey.Model.CliBench
import GoiKey.Model.FileWrites
import GoiKey.Model.Hid
import GoiKey.Model.Nonces
import GoiKey.Model.PinTasks
import GoiKey.Model.Accel
import GoiKey.Model.FpgaLink
import GoiKey.Model.FrameIo
import GoiKey.Model.AccelTop
import GoiKey.Model.BnEngine
import GoiKey.Model.PqPack
import GoiKey.Model.PqModel
import GoiKey.Model.PqSmp
import GoiKey.Model.PqPoly
import GoiKey.Model.UartBridge
import GoiKey.Proofs.HidPackets
import GoiKey.Proofs.HidBuffers
import GoiKey.Proofs.HidMessages
import GoiKey.Proofs.HidResponses
import GoiKey.Proofs.HidDelivery
import GoiKey.Proofs.SkippedItems
import GoiKey.Proofs.ParserOffsets
import GoiKey.Proofs.TypedReads
import GoiKey.Proofs.BoundValues
import GoiKey.Proofs.Extraction
import GoiKey.Proofs.Parsing
import GoiKey.Proofs.RoundTrips
import GoiKey.Proofs.RecordFile
import GoiKey.Proofs.Commands
import GoiKey.Proofs.FileWrites
import GoiKey.Proofs.Fingers
import GoiKey.Proofs.Handlers
import GoiKey.Proofs.ManagementRules
import GoiKey.Proofs.Acts
import GoiKey.Proofs.Memory
import GoiKey.Proofs.Matches
import GoiKey.Proofs.Credentials
import GoiKey.Proofs.CredentialActs
import GoiKey.Proofs.Records
import GoiKey.Proofs.HmacSecret
import GoiKey.Proofs.Listing
import GoiKey.Proofs.SigningKeys
import GoiKey.Proofs.SavedRecords
import GoiKey.Proofs.NextAssertion
import GoiKey.Proofs.Enumeration
import GoiKey.Proofs.Atomicity
import GoiKey.Proofs.Uniqueness
import GoiKey.Proofs.PinChange
import GoiKey.Proofs.Authorization
import GoiKey.Proofs.PinToken
import GoiKey.Proofs.Retries
import GoiKey.Proofs.Wipes
import GoiKey.Proofs.Templates
import GoiKey.Proofs.Updates
import GoiKey.Proofs.UserVerified
import GoiKey.Proofs.VaultMap
import GoiKey.Proofs.Algorithms
import GoiKey.Proofs.WrappedIds
import GoiKey.Proofs.Encoder
import GoiKey.Proofs.AuthData
import GoiKey.Proofs.StoredSizes
import GoiKey.Proofs.Responses
import GoiKey.Proofs.ManagementResponses
import GoiKey.Proofs.Sessions
import GoiKey.Proofs.ExcludeList
import GoiKey.Proofs.PowerCuts
import GoiKey.Proofs.ShortWrites
import GoiKey.Proofs.RecordLists
import GoiKey.Proofs.Nonces
import GoiKey.Proofs.PinTasks
import GoiKey.Proofs.Accel
import GoiKey.Proofs.Isolation
import GoiKey.Proofs.Lines
import GoiKey.Proofs.Backups
import GoiKey.Proofs.BackupRuns
import GoiKey.Proofs.Frames
import GoiKey.Proofs.FrameTx
import GoiKey.Proofs.LinkFrames
import GoiKey.Proofs.TopLevel
import GoiKey.Proofs.OwnAnswers
import GoiKey.Proofs.BnWords
import GoiKey.Proofs.BnPasses
import GoiKey.Proofs.BnRows
import GoiKey.Proofs.BnMultiply
import GoiKey.Proofs.BnOperations
import GoiKey.Proofs.BnExponent
import GoiKey.Proofs.PqPacking
import GoiKey.Proofs.PqHints
import GoiKey.Proofs.PqFormats
import GoiKey.Proofs.PqStreams
import GoiKey.Proofs.PqBall
import GoiKey.Proofs.PqSamplers
import GoiKey.Proofs.PqMontgomery
import GoiKey.Proofs.PqTransforms
import GoiKey.Proofs.PqDatapath
import GoiKey.Proofs.PqButterflies
import GoiKey.Proofs.PqNtt
import GoiKey.Proofs.UartBridge
import GoiKey.Proofs.CborEncoder
import GoiKey.Proofs.U2fReads
import GoiKey.Proofs.UvTimes
import GoiKey.Model.SignCounter
import GoiKey.Proofs.SignCounter
import GoiKey.Proofs.Capacity
import GoiKey.Proofs.PinPolicy
import GoiKey.Proofs.Totp
import GoiKey.Proofs.AlgorithmChoice
import GoiKey.Proofs.Advances
import GoiKey.Proofs.RequestLoops
import GoiKey.Proofs.StoredPayloads
import GoiKey.Proofs.GeneratedPasswords
import GoiKey.Proofs.Atecc
import GoiKey.Proofs.KeyStore
import GoiKey.Proofs.DirtyJtag
import GoiKey.Proofs.SpiLink
import GoiKey.Proofs.InverseOperations
import GoiKey.Proofs.Sha2Hash
import GoiKey.Proofs.Sha2Keyed
import GoiKey.Proofs.ShakeStream
import GoiKey.Proofs.LargeBlobs
import GoiKey.Proofs.Approvals
import GoiKey.Proofs.AssertionLists
import GoiKey.Model.AccelCmd
