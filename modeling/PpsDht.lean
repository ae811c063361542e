import PpsDht.CStrings
import PpsDht.AllocatingPrograms
import PpsDht.AssociationLists
import PpsDht.GreedyPacking
import PpsDht.Hashtable
import PpsDht.HashtableMap
import PpsDht.FailingTables
import PpsDht.ContentOrder
import PpsDht.ServerLoop
import PpsDht.DumpDatagrams
import PpsDht.ServerRefinement
import PpsDht.ServerStates
import PpsDht.DumpNode
import PpsDht.DumpCompletion
import PpsDht.DumpBuffer
import PpsDht.FirstOccurrences
import PpsDht.Nodes
import PpsDht.SortedLists
import PpsDht.RingWalk
import PpsDht.SortedRings
import PpsDht.SocketPrograms
import PpsDht.Network
import PpsDht.ClientPrograms
import PpsDht.VoteTally
import PpsDht.QuorumReads
import PpsDht.ReadQuorums
import PpsDht.HonestReplies
import PpsDht.DatagramNetworks
import PpsDht.DatagramCounting
import PpsDht.DhtNetwork
import PpsDht.DeliveredPuts
import PpsDht.FreshGets
import PpsDht.Scanning
import PpsDht.PermutedLists
import PpsDht.SuccessorNodes
import PpsDht.ClientStartup
import PpsDht.OptionParsing
import PpsDht.ServedKeys
import PpsDht.ClientSubstr
import PpsDht.ElapsedTimes
import PpsDht.ResultFiles
import PpsDht.DumpReads
import PpsDht.WrittenReads
import PpsDht.CircularPicks
import PpsDht.FailingWalks
import PpsDht.ClientTraces
import PpsDht.ClientCat
import PpsDht.StoredConcatenations
import PpsDht.ConcurrentNetworks
import PpsDht.ConcurrentServers
import PpsDht.ConcurrentCalls
import PpsDht.Linearizations
import PpsDht.SingleReplicas
import PpsDht.ValueOrigins
import PpsDht.BoundedCalls
import PpsDht.ReturningCalls
import PpsDht.MappedResults
import PpsDht.ClientProcesses
import PpsDht.FreshOutputs
import PpsDht.HeapPrograms
import PpsDht.HashtableBlocks
import PpsDht.HashtableInMemory
import PpsDht.ContentInMemory
import PpsDht.ServerInMemory
import PpsDht.HeapNetworks
import PpsDht.LinkedNodes
import PpsDht.NodesInMemory
import PpsDht.LinkedNetwork
import PpsDht.NetworkInMemory
import PpsDht.CallsInMemory
