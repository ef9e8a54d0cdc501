import UdpNotif.Constants
import UdpNotif.Utils.Types
import UdpNotif.Utils.Parse
import UdpNotif.Lib.ChainedTable
import UdpNotif.Lib.Runs
import UdpNotif.Lib.SortedKeys
import UdpNotif.Utils.QueueThreads
import UdpNotif.SegmentationBuffer.MessageList
import UdpNotif.SegmentationBuffer.MessageListInvariant
import UdpNotif.SegmentationBuffer.Completeness
import UdpNotif.SegmentationBuffer.Buffer
import UdpNotif.SegmentationBuffer.FiniteMap
import UdpNotif.SegmentationBuffer.FailedInsert
import UdpNotif.Lib.Dispatch
import UdpNotif.ListeningWorker.Collector
import UdpNotif.ListeningWorker.ExactlyOnce
import UdpNotif.ListeningWorker.EndToEnd
import UdpNotif.ListeningWorker.Draining
import UdpNotif.ListeningWorker.Monitored
import UdpNotif.ListeningWorker.ReceivedBytes
import UdpNotif.ParsingWorker.ArrivalOrder
import UdpNotif.ParsingWorker.EntryCounter
import UdpNotif.ParsingWorker.FailedMallocs
import UdpNotif.ParsingWorker.ParserExit
import UdpNotif.ParsingWorker.PayloadLength
import UdpNotif.ParsingWorker.ReassemblySize
import UdpNotif.ParsingWorker.RoundTrip
import UdpNotif.SegmentationBuffer.Coverage
import UdpNotif.SegmentationBuffer.Eviction
import UdpNotif.ParsingWorker.Fragments
import UdpNotif.SegmentationBuffer.ListInvariant
import UdpNotif.Utils.Partition
import UdpNotif.MonitoringWorker.Conservation
import UdpNotif.Utils.FreeCollector
import UdpNotif.Utils.SentBytes
import UdpNotif.ParsingWorker.Legacy
import UdpNotif.Lib.CompactIndex
import UdpNotif.MonitoringWorker.IndexBounds
import UdpNotif.MonitoringWorker.IdleOdids
import UdpNotif.SegmentationBuffer.ClearBuffer
import UdpNotif.ParsingWorker.PayloadOwners
import UdpNotif.ListeningWorker.OpenMessages
import UdpNotif.ListeningWorker.Listener
