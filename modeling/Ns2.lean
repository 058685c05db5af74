import Ns2.Common.Heap.Correctness
import Ns2.Common.Heap.Ties
import Ns2.Adc.Tbf.Correctness
import Ns2.Common.ListScheduler
import Ns2.Common.Calendar.Correctness
import Ns2.Common.EventLoop.Correctness
import Ns2.Common.Splay.Correctness
import Ns2.Tcp.Acker.Correctness
import Ns2.Tcp.Sacker.Correctness
import Ns2.Tcp.ReassemblyQueue.InOrder
import Ns2.Tcp.ReassemblyQueue.Flags
import Ns2.Tcp.ReassemblyQueue.Recency
import Ns2.Tcp.ScoreBoardRQ.Correctness
import Ns2.Tcp.ScoreBoard.Correctness
import Ns2.Tcp.ScoreBoard1.Retransmission
import Ns2.Tcp.ScoreBoardRH.Correctness
import Ns2.Tcp.Rtt.Correctness
import Ns2.Tcp.SendTimes.Correctness
import Ns2.Apps.Rfid.QAlgorithm
import Ns2.Apps.Rfid.Rounds
import Ns2.Apps.Rfid.Custody
import Ns2.Apps.Rfid.Sessions
import Ns2.Apps.Rfid.FramedAloha
import Ns2.Queue.Hash
import Ns2.Queue.Sfq
import Ns2.Queue.Fq.Correctness
import Ns2.Queue.Drr.Fairness
import Ns2.Queue.Reconfigure
import Ns2.Queue.Srr.Correctness
import Ns2.Queue.Srr.Service
import Ns2.Queue.PriQueue.ByteMode
import Ns2.Queue.PriQueue.Correctness
import Ns2.Aodv.RouteErrors
import Ns2.Aodv.LocalRepair
import Ns2.Aodv.RingSearch
import Ns2.Aodv.Network
import Ns2.Linkstate.Correctness
import Ns2.Linkstate.Acknowledgements
import Ns2.Linkstate.Flooding
import Ns2.Linkstate.Freshness
import Ns2.Diffusion.Comparisons
import Ns2.Diffusion.Factories
import Ns2.Diffusion.Packing.Correctness
import Ns2.Routing.Growth
import Ns2.Routealgo.Correctness
import Ns2.Common.PacketPool.Correctness
import Ns2.Common.Timers.Correctness
import Ns2.Dsr.MobiCache.Correctness
import Ns2.Dsr.RequestTable.Correctness
import Ns2.Dsr.Compression
import Ns2.Dsr.Capacity
import Ns2.Nix.Nixvec.Correctness
import Ns2.Nix.Routing.Correctness
import Ns2.Dsdv.Update.Correctness
import Ns2.Dsdv.Network
import Ns2.Dsdv.Routing.Settling
import Ns2.Dsdv.Events.Correctness
import Ns2.Mac.BackoffTimer.Correctness
