import NetSim.PacketCodec
import NetSim.ByteStream
import NetSim.PipeStream
import NetSim.RingQueue
import NetSim.FileBuffer
import NetSim.BlockShift
import NetSim.FileSplit
import NetSim.FileUpload
import NetSim.GraphPaths
import NetSim.NetworkTopology
import NetSim.NetworkWiring
import NetSim.SwitchNode
import NetSim.NetworkRuns
import NetSim.LinkSends
import NetSim.CarriedFrames
import NetSim.LinkTraffic
import NetSim.LearnedRoutes
import NetSim.SwitchElection
import NetSim.ElectedTree
import NetSim.FlagTree
import NetSim.PortFlags
import NetSim.Continuations
import NetSim.Settling
import NetSim.FloodLinks
import NetSim.PacketCopies
import NetSim.TreeSpread
import NetSim.ForestDelivery
import NetSim.DeliveryTree
import NetSim.TreeFlooding
import NetSim.SwitchPings
import NetSim.PingLoops
import NetSim.PacketLinks
import NetSim.CStrings
import NetSim.EventRuns
import NetSim.DnsServer
import NetSim.NamingTable
import NetSim.DnsLookups
import NetSim.RegisterRequests
import NetSim.ConcurrentUploads
import NetSim.ReplyBook
import NetSim.HostNode
import NetSim.HostBook
import NetSim.HostWaits
import NetSim.HostReplies
import NetSim.ManagerReplies
import NetSim.LinkedCells
import NetSim.JobQueues
import NetSim.PortLists
import NetSim.FileCuts
import NetSim.LookupReplies
import NetSim.DownloadRequests
import NetSim.AnswerSlot
import NetSim.HostQueries
import NetSim.WatchedHost
import NetSim.PingAnswers
import NetSim.NameAnswers
import NetSim.CommandStream
import NetSim.ScanText
import NetSim.CommandDecoding
import NetSim.FileScan
import NetSim.NetConfig
import NetSim.ConfigRecords
import NetSim.ConfigChecks
import NetSim.ConfigText
import NetSim.PacketAddresses
import NetSim.SocketPorts
import NetSim.HostJobs
import NetSim.HostWrites
import NetSim.Simulation
import NetSim.TableIndices
import NetSim.InfiniteRuns
import NetSim.NetworkSchedules
import NetSim.Convergence
import NetSim.FrameHistory
import NetSim.EventualDelivery
import NetSim.SimulatedNetwork
import NetSim.OwnPackets
import NetSim.SimulationRefinement
import NetSim.SimulatedSwitches
import NetSim.SentPackets
import NetSim.RequestReplies
import NetSim.HostProgress
import NetSim.RequestQueue
import NetSim.AnsweredRequests
import NetSim.ManagerConsole
import NetSim.ShownState
import NetSim.Startup
import NetSim.ManagerSession
import NetSim.OrderedDelivery
import NetSim.OrderedReads
import NetSim.UploadDelivery
