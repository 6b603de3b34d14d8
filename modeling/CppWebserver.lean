import CppWebserver.PatternSearch
import CppWebserver.DelimitedStreams
import CppWebserver.SegmentationIndependence
import CppWebserver.DirectoryTrees
import CppWebserver.Numerals
import CppWebserver.ByteStrings
import CppWebserver.ServedFiles
import CppWebserver.HttpParserProgram
import CppWebserver.RequestTargets
import CppWebserver.RequestDispatch
import CppWebserver.RequestOutcomes
import CppWebserver.HttpMessages
import CppWebserver.ResponseMessages
import CppWebserver.GetRequests
import CppWebserver.FailingLookups
import CppWebserver.SocketReadLoop
import CppWebserver.ReadAccounting
import CppWebserver.LabelledRuns
import CppWebserver.SocketServer
import CppWebserver.ChildProcesses
import CppWebserver.ServerRuns
import CppWebserver.ServingCapacity
import CppWebserver.DescriptorTables
import CppWebserver.ForkedProcesses
import CppWebserver.ServerSchedules
import CppWebserver.ServedConnections
import CppWebserver.Conversations
import CppWebserver.ConversationOutcomes
import CppWebserver.DaytimeService
import CppWebserver.PortArguments
import CppWebserver.WebServer
import CppWebserver.ServerProgress
import CppWebserver.ServedPages
import CppWebserver.AnswerHeads
import CppWebserver.DisclosedFiles
import CppWebserver.ShutDownConnections
import CppWebserver.OverwrittenArrays
import CppWebserver.PrintingLoops
import CppWebserver.RequestLines
import CppWebserver.LexicalPaths
import CppWebserver.DotSegments
import CppWebserver.BlockFolds
import CppWebserver.ParallelAccumulate
import CppWebserver.ParallelRuns
import CppWebserver.ParallelSums
import CppWebserver.ByteOrders
import CppWebserver.SocketAddresses
import CppWebserver.AddressConversions
import CppWebserver.ConstexprGcd
import CppWebserver.Ownership
import CppWebserver.RvalueReferences
import CppWebserver.ThreadOwnership
