import EraseCure.TextSearch
import EraseCure.LinkedRuns
import EraseCure.CText
import EraseCure.ErrorCodes
import EraseCure.Devices
import EraseCure.Hashing
import EraseCure.AuditRecords
import EraseCure.AuditLog
import EraseCure.AuditLines
import EraseCure.AuditSessions
import EraseCure.AuditEdits
import EraseCure.AuditFraming
import EraseCure.AuditRuns
import EraseCure.AuditBinding
import EraseCure.ByteRanges
import EraseCure.FileSystems
import EraseCure.EraseOutcomes
import EraseCure.ErasePasses
import EraseCure.BlockEraseImage
import EraseCure.Verification
import EraseCure.EraseRoundTrip
import EraseCure.FileVerify
import EraseCure.VerificationVerdicts
import EraseCure.FileEraser
import EraseCure.FileOverwrites
import EraseCure.BlockEraseDevice
import EraseCure.Sanitizers
import EraseCure.SanitizerRuns
import EraseCure.Cli
import EraseCure.VerifiedRuns
import EraseCure.FileMirrors
import EraseCure.ApparentImages
import EraseCure.Scans
import EraseCure.Occurrences
import EraseCure.FileValidators
import EraseCure.JpegMarkers
import EraseCure.ParsedSizes
import EraseCure.TruncatedFiles
import EraseCure.BinaryHeaps
import EraseCure.Monitors
import EraseCure.PromisingQueues
import EraseCure.QueueOrder
import EraseCure.QueueConservation
import EraseCure.RingBuffers
import EraseCure.WorkerPools
import EraseCure.PoolTasks
import EraseCure.PoolWakeups
import EraseCure.PoolRuns
import EraseCure.LostWakeups
import EraseCure.PathNames
import EraseCure.FileTrees
import EraseCure.FileCalls
import EraseCure.FolderEraser
import EraseCure.DangerousPaths
import EraseCure.FolderVisits
import EraseCure.FolderConfinement
import EraseCure.FolderWays
import EraseCure.FolderRoads
import EraseCure.FolderLosses
import EraseCure.FolderFailures
import EraseCure.GifWords
import EraseCure.Crc32
import EraseCure.PngWords
import EraseCure.CarvedFiles
import EraseCure.JpegWords
import EraseCure.Discovery
import EraseCure.FileTypeRegistry
import EraseCure.DefaultSignatures
import EraseCure.CheckedReads
import EraseCure.CheckedValidators
import EraseCure.ValidatorReads
import EraseCure.EndlessChunks
import EraseCure.WordBytes
import EraseCure.BlockStates
import EraseCure.TruncatedStates
import EraseCure.Blockmaps
import EraseCure.BlockmapWorkers
import EraseCure.SortedGroups
import EraseCure.BlockmapPasses
import EraseCure.DuplicateGroups
import EraseCure.DuplicateContents
import EraseCure.StaleMarks
import EraseCure.EvidenceIntegrity
import EraseCure.HashedBlocks
import EraseCure.KilledCandidates
import EraseCure.MountTables
import EraseCure.DeviceGates
import EraseCure.AdvertisedMethods
import EraseCure.VerifierAgreement
import EraseCure.EraserAgreement
import EraseCure.ExactScans
import EraseCure.DroppedHits
import EraseCure.Registrations
import EraseCure.FormatBlobs
import EraseCure.CarveStates
import EraseCure.ShiftedNumbers
import EraseCure.PassTraces
import EraseCure.DevicePasses
import EraseCure.ProgressTraces
import EraseCure.FilePasses
import EraseCure.AcceptedBytes
import EraseCure.SampledBlocks
import EraseCure.UnverifiedRemovals
import EraseCure.StreamedHashes
import EraseCure.ScatteredFiles
import EraseCure.TestImages
import EraseCure.EmbeddedRanges
import EraseCure.GroundTruths
import EraseCure.MetadataEraser
import EraseCure.AtaPassthrough
import EraseCure.AtaCompletions
import EraseCure.AtaIdentify
import EraseCure.IdentifiedDrives
import EraseCure.BlockScores
import EraseCure.MountAlarms
import EraseCure.JsonTexts
import EraseCure.FlatObjects
import EraseCure.CivilDates
import EraseCure.Manifests
import EraseCure.FaithfulLines
import EraseCure.RecoveredFiles
import EraseCure.RecoveryCases
import EraseCure.DepthFirstTours
import EraseCure.RepeatedReads
import EraseCure.EndRecords
import EraseCure.OverwriteLoops
import EraseCure.ArrayStacks
import EraseCure.Blockvectors
import EraseCure.DeviceScans
import EraseCure.TornWrites
import EraseCure.TornAppends
import EraseCure.TornErases
import EraseCure.ForgottenContents
import EraseCure.BufferedErases
import EraseCure.RecoveryAfterErase
import EraseCure.MonitorRanks
import EraseCure.QueueWakeups
import EraseCure.PoolSections
import EraseCure.CommandLines
import EraseCure.FolderOutcomes
import EraseCure.BatchErases
import EraseCure.FolderRemovals
import EraseCure.NvmeIdentify
import EraseCure.CapabilityRefreshes
import EraseCure.KeyManagement
import EraseCure.PlantedFiles
