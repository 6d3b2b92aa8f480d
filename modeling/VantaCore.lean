import VantaCore.Lib.Bits
import VantaCore.Lib.PageTable
import VantaCore.Lib.PyText
import VantaCore.Lib.PyFields
import VantaCore.Lib.Dict
import VantaCore.Lib.TopoOrder
import VantaCore.Lib.RingQueue
import VantaCore.Lib.MacChain
import VantaCore.Lib.Json.Strings
import VantaCore.Lib.Json.Text
import VantaCore.Lib.Json.RoundTrip
import VantaCore.Lib.Json.Values
import VantaCore.Lib.Json.Canonical
import VantaCore.Lib.Json.Lines
import VantaCore.Core.DumpHandle
import VantaCore.Core.TranslationBase
import VantaCore.Core.Backends.X8664
import VantaCore.Core.Backends.X8664Walk
import VantaCore.Core.Backends.FlatImage
import VantaCore.Core.Backends.ReadVirtual
import VantaCore.Core.Scanner.RingBuffer
import VantaCore.Core.Scanner.Spsc
import VantaCore.Core.Scanner.Delivery
import VantaCore.Extractors.Base
import VantaCore.Extractors.ResolveDag
import VantaCore.Extractors.Execute
import VantaCore.Extractors.ScanStatus
import VantaCore.Extractors.StatusEntry
import VantaCore.Extractors.Merge
import VantaCore.Core.Audit.Trail
import VantaCore.Core.Audit.Line
import VantaCore.Core.Audit.Runs
import VantaCore.Core.Audit.Chain
import VantaCore.Core.Audit.Commit
import VantaCore.Core.Audit.Forge
import VantaCore.Core.Audit.Unforgeable
import VantaCore.Core.Audit.Failures
import VantaCore.Core.Scanner.Fifo
import VantaCore.Core.Scanner.ParallelScan
import VantaCore.Core.Scanner.Coordinator
import VantaCore.Core.Scanner.Respawn
import VantaCore.Core.Scanner.StopEvent
import VantaCore.Core.Scanner.EarlyExit
import VantaCore.Core.Scanner.Cleanup
import VantaCore.Core.Db
import VantaCore.Lib.FirstBy
import VantaCore.Lib.LinkedPath
import VantaCore.Extractors.Linux.ListWalk
import VantaCore.Extractors.Linux.Process
import VantaCore.Extractors.Linux.Modules
import VantaCore.Extractors.Linux.Network
import VantaCore.Lib.TwoPass
import VantaCore.Extractors.Linux.ProcessRun
import VantaCore.Extractors.Linux.ModulesRun
import VantaCore.Extractors.Linux.DualPath
import VantaCore.Extractors.Linux.Carving
import VantaCore.Lib.Search
import VantaCore.Core.Backends.Appliances.ScanBytes
import VantaCore.Core.Backends.Appliances.ScanFile
import VantaCore.Core.Backends.Appliances.Detectors
import VantaCore.Core.Backends.Detector
import VantaCore.Core.Backends.Agreement
import VantaCore.Core.Backends.Appliances.DetectionOrder
import VantaCore.Extractors.Cisco.TextScan
import VantaCore.Extractors.Cisco.ChunkEnds
import VantaCore.Extractors.Cisco.Text
import VantaCore.Extractors.Cisco.Asa.ConnTable
import VantaCore.Extractors.Cisco.Asa.AclRules
import VantaCore.Extractors.Cisco.Asa.AclPrinting
import VantaCore.Extractors.Cisco.Common.SnmpConfig
import VantaCore.Extractors.Cisco.Ios.RoutingTable
import VantaCore.Extractors.Cisco.Chunking
import VantaCore.Extractors.Cisco.Asa.VpnSessions
import VantaCore.Extractors.Cisco.Ios.RunningConfig
import VantaCore.Extractors.Cisco.Common.CliHistory
import VantaCore.Lib.Alignment
import VantaCore.Extractors.Cisco.Credentials
import VantaCore.Extractors.Cisco.TwoDumps
import VantaCore.Extractors.Cisco.Copies
import VantaCore.Extractors.Cisco.Redaction
import VantaCore.Extractors.Cisco.Asa.ConnAddresses
import VantaCore.Extractors.Cisco.Asa.ConnRecord
import VantaCore.Core.Backends.CutHeader
import VantaCore.Core.Scanner.WorkerWindow
import VantaCore.Lib.Sampling
import VantaCore.Core.Entropy
import VantaCore.Extractors.Generic.Keys
import VantaCore.Lib.CappedRuns
import VantaCore.Extractors.Cisco.Common.CliClusters
import VantaCore.Lib.BinaryMask
import VantaCore.Extractors.Cisco.Ios.PrefixLength
import VantaCore.Utils.Validation
import VantaCore.Cli.Verify
import VantaCore.Lib.Trim
import VantaCore.Extractors.Cisco.Asa.LinaProcess
import VantaCore.Extractors.Cisco.FirmwareVersions
import VantaCore.Lib.CallLog
import VantaCore.Extractors.Linux.AddressRange
import VantaCore.Core.Scanner.WorkerLock
import VantaCore.Lib.QueueHistory
import VantaCore.Core.Scanner.Linearizable
import VantaCore.Core.Scanner.Crashes
import VantaCore.Cli.Scan
import VantaCore.Cli.ScanHistory
import VantaCore.Extractors.Linux.Report
import VantaCore.Extractors.Linux.Unlinking
import VantaCore.Lib.ChunkSearch
import VantaCore.Extractors.Cisco.Ios.IosProcesses
import VantaCore.Lib.Histories
import VantaCore.Core.LoggingConfig
import VantaCore.Core.DbSessions
import VantaCore.Core.Hooks
import VantaCore.Lib.Spacing
import VantaCore.Core.Progress
import VantaCore.Lib.Lines
import VantaCore.Lib.PyPrinting
import VantaCore.Extractors.Cisco.Lines
import VantaCore.Extractors.Cisco.Addresses
import VantaCore.Extractors.Cisco.Ios.RoutePrinting
import VantaCore.Extractors.Cisco.Asa.AclImages
import VantaCore.Extractors.Cisco.Asa.ConnImages
