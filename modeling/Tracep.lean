import Tracep.Lib.Loop
import Tracep.Dns.GoParse
import Tracep.Dns.CParse
import Tracep.Dns.ReadName
import Tracep.Dns.GoSpec
import Tracep.Dns.CSpec
import Tracep.Dns.Sections
import Tracep.Dns.Parse
import Tracep.Dns.Frame
import Tracep.Dns.Safety
import Tracep.Dns.Termination
import Tracep.Dns.Agreement
import Tracep.Dns.Encode
import Tracep.Dns.RoundTrip
import Tracep.Dns.MainLoop
import Tracep.Dns.Pending
import Tracep.Dns.NameFilter
import Tracep.Capture.Bpf
import Tracep.Capture.CapNext
import Tracep.Netlink.Message
import Tracep.Exectrace.Dispatch
import Tracep.Exectrace.Delivery
import Tracep.Nettrace.Attr
import Tracep.Nettrace.Tuple
import Tracep.Nettrace.Process
import Tracep.Nettrace.Walk
import Tracep.Nettrace.RoundTrip
import Tracep.Lib.Probing
import Tracep.Lib.ProbingMap
import Tracep.Exectrace.PidDb
import Tracep.Exectrace.Proc
import Tracep.Exectrace.Tracer
import Tracep.Exectrace.TableTracer
import Tracep.Exectrace.History
import Tracep.Lib.Asking
import Tracep.Lib.Machine
import Tracep.Lib.Store
import Tracep.Nettrace.Sockets
import Tracep.Nettrace.Effect
import Tracep.Nettrace.Connections
import Tracep.Nettrace.Filters
import Tracep.Exectrace.DarwinScan
import Tracep.Exectrace.DarwinRuns
import Tracep.Exectrace.DarwinAgreement
import Tracep.Lib.Decimal
import Tracep.Lib.Fresh
import Tracep.Nettrace.Lsof
import Tracep.Nettrace.DarwinScan
import Tracep.Lib.ProbingSet
import Tracep.Nettrace.DarwinSeen
import Tracep.Lib.Outputs
import Tracep.Lib.SlotCache
import Tracep.Tlstrace.Line
import Tracep.Tlstrace.Events
import Tracep.Lib.CBuffer
import Tracep.Lib.Shell
import Tracep.Common.Shquote
import Tracep.Common.Pool
import Tracep.Lib.Chase
import Tracep.Lib.Fields
import Tracep.Nettrace.Descendant
import Tracep.Procfs.Stat
import Tracep.Exectrace.Depth
import Tracep.Lib.Hex
import Tracep.Procfs.SocketTable
import Tracep.Lib.Scanf
import Tracep.Dns.InodeForPort
import Tracep.Nettrace.ProcNet
import Tracep.Lib.Searching
import Tracep.Nettrace.FindInode
import Tracep.Lib.AddressText
import Tracep.Tlstrace.HexAddr
import Tracep.Ca.Url
import Tracep.Ca.Fetch
import Tracep.Exectrace.ShQuote
import Tracep.Exectrace.Pasting
import Tracep.Exectrace.Cmdline
import Tracep.Exectrace.ListAllPids
import Tracep.Capture.Inside
import Tracep.Capture.Reads
import Tracep.Exectrace.Procargs
import Tracep.Lib.Ttl
import Tracep.Dns.ProcCache
import Tracep.Dns.ScanUdp
import Tracep.Dns.JsonEscape
import Tracep.Tlstrace.MappedAddr
import Tracep.Tlstrace.RemoteHost
import Tracep.Tlstrace.SniCache
import Tracep.Nettrace.JoinHostPort
import Tracep.Lib.Lines
import Tracep.Nettrace.PrintEvent
import Tracep.Common.Columns
import Tracep.Dns.Emit
import Tracep.Lib.Trim
import Tracep.Nettrace.Args
import Tracep.Ca.Message
import Tracep.Lib.Regex
import Tracep.Tlstrace.ParseLine
import Tracep.Nettrace.ConnDb
import Tracep.Ca.Redirect
import Tracep.Ca.Flags
import Tracep.Lib.Background
import Tracep.Nettrace.ReverseDns
import Tracep.Lib.Programs
import Tracep.Tlstrace.Uprobes
import Tracep.Lib.Clipped
import Tracep.Common.Cuts
import Tracep.Exectrace.Render
import Tracep.Exectrace.LogAgreement
import Tracep.Lib.JsonText
import Tracep.Dns.JsonRecords
import Tracep.Dns.LogAgreement
