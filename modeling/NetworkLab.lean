import NetworkLab.GuardedRuns
import NetworkLab.BucketTable
import NetworkLab.MacTable
import NetworkLab.LearningSwitch
import NetworkLab.Checksum
import NetworkLab.RoutingTable
import NetworkLab.NatTranslation
import NetworkLab.NatSafety
import NetworkLab.NatDelivery
import NetworkLab.GreedyLayers
import NetworkLab.MospfPaths
import NetworkLab.MospfShortest
import NetworkLab.ReadDeadlock
import NetworkLab.Stp
import NetworkLab.StpAgreement
import NetworkLab.TcpStream
import NetworkLab.TcpShiftProcess
import NetworkLab.SendQueue
import NetworkLab.InertSegments
import NetworkLab.HandshakeProgress
import NetworkLab.ListenerHistory
import NetworkLab.AcceptQueue
import NetworkLab.ReceiveWindow
import NetworkLab.SendWindow
import NetworkLab.CloseHandshake
import NetworkLab.ReferenceRuns
import NetworkLab.PoptrieRefinement
import NetworkLab.PoptrieOrder
import NetworkLab.RingBufferRuns
import NetworkLab.ArpCache
import NetworkLab.MospfFreshness
import NetworkLab.MospfExpiry
import NetworkLab.MospfWire
import NetworkLab.MospfHistory
import NetworkLab.WaitThreads
import NetworkLab.StpRoles
import NetworkLab.StpFrames
import NetworkLab.NatPool
import NetworkLab.NatFinish
import NetworkLab.FileTransfer
import NetworkLab.DefaultRoute
import NetworkLab.PoptrieNodes
import NetworkLab.PoptriePointing
import NetworkLab.MospfAdjacency
import NetworkLab.MospfBounds
import NetworkLab.MospfRoutes
import NetworkLab.MospfNeighbours
import NetworkLab.OfoPointers
import NetworkLab.AckRecovery
import NetworkLab.RetransTimer
import NetworkLab.RingAssertion
import NetworkLab.TcpWrite
import NetworkLab.TcpChecksum
import NetworkLab.HopLimit
import NetworkLab.EchoReply
import NetworkLab.IcmpBounds
import NetworkLab.RouterArp
import NetworkLab.ArpLock
import NetworkLab.MacHistory
import NetworkLab.TcpDemux
import NetworkLab.TcpPorts
import NetworkLab.ListHistory
import NetworkLab.PoptrieDepth
import NetworkLab.PoptrieMarks
import NetworkLab.CwndGrowth
import NetworkLab.ArpResolution
import NetworkLab.HubNetwork
import NetworkLab.MospfTables
import NetworkLab.TcpTransfer
import NetworkLab.StpSpanningTree
import NetworkLab.SwitchDelivery
import NetworkLab.MospfSync
import NetworkLab.CodedRuns
import NetworkLab.NatConfig
import NetworkLab.StpCosts
import NetworkLab.StpWire
import NetworkLab.TcpWire
