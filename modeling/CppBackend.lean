import CppBackend.Library.Transition
import CppBackend.Library.Tally
import CppBackend.Library.Threads
import CppBackend.Library.Mutex
import CppBackend.Library.Storage
import CppBackend.Library.Slots
import CppBackend.Library.Keyed
import CppBackend.Library.Loop
import CppBackend.Library.Bytes
import CppBackend.Library.Stream
import CppBackend.Library.FdSet
import CppBackend.SharedPtr.Model
import CppBackend.SharedPtr.Ownership
import CppBackend.SharedPtr.Runs
import CppBackend.ThreadPool.Model
import CppBackend.ThreadPool.Steps
import CppBackend.ThreadPool.Locks
import CppBackend.ThreadPool.Counter
import CppBackend.ThreadPool.Drain
import CppBackend.ThreadPool.WakeUp
import CppBackend.ThreadPool.Completion
import CppBackend.Packet.Model
import CppBackend.Packet.Frame
import CppBackend.Packet.Receive
import CppBackend.Packet.ClientDecode
import CppBackend.Packet.ServerDecode
import CppBackend.Packet.Agreement
import CppBackend.Packet.Session
import CppBackend.Packet.BodyLoop
import CppBackend.Library.Descriptors
import CppBackend.MultiThread.Isolation
import CppBackend.PoolServer.Model
import CppBackend.PoolServer.Steps
import CppBackend.PoolServer.Reuse
import CppBackend.PoolServer.Order
import CppBackend.PoolServer.Shutdown
import CppBackend.PoolServer.Signal
import CppBackend.SelectThread.Handlers
import CppBackend.EpollServer.Model
import CppBackend.EpollServer.Events
import CppBackend.SingleReactor.Callbacks
import CppBackend.Select.Bookkeeping
import CppBackend.Select.Pass
import CppBackend.Select.FdSetSize
import CppBackend.Library.Poll
import CppBackend.PollServer.Model
import CppBackend.PollServer.Table
import CppBackend.PollServer.Watched
import CppBackend.PollServer.Pass
import CppBackend.PollThreadTp.Model
import CppBackend.PollThreadTp.Steps
import CppBackend.PollThreadTp.Agreement
import CppBackend.PollThreadTp.Closing
import CppBackend.Library.LongLong
import CppBackend.MyMath.Residues
import CppBackend.MyMath.Signed
import CppBackend.MyMath.Inverse
import CppBackend.MyMath.Termination
import CppBackend.UniquePtr.Ownership
import CppBackend.Library.CString
import CppBackend.EpollThreadTpet.Model
import CppBackend.EpollThreadTpet.Answers
import CppBackend.Retype.Model
import CppBackend.Retype.Lockstep
import CppBackend.UdpClient.Model
import CppBackend.UdpClient.Ownership
import CppBackend.SubReactors.Model
import CppBackend.SubReactors.Steps
import CppBackend.SubReactors.Buffer
import CppBackend.SubReactors.Rotation
import CppBackend.SubReactors.Teardown
import CppBackend.Library.Outcome
import CppBackend.Library.Releases
import CppBackend.ObjectGraph.Cascade
import CppBackend.ObjectGraph.Programs
import CppBackend.ObjectGraph.Assignment
import CppBackend.Library.Sorting
import CppBackend.StrategyMode.Bubble
import CppBackend.ObserverMode.Delivery
import CppBackend.ReceivedText.Scan
import CppBackend.Library.PriorityQueue
import CppBackend.PriThreadPool.Model
import CppBackend.ThreadPool.Laws
import CppBackend.PriThreadPool.Steps
import CppBackend.PriThreadPool.Priority
import CppBackend.PriThreadPool.Throwing
import CppBackend.Library.WakeUp
import CppBackend.ProducerConsumer.Fifo
import CppBackend.ProducerConsumer.Drain
import CppBackend.UdpEcho.Model
import CppBackend.UdpEcho.Replies
import CppBackend.UdpEcho.Service
import CppBackend.Bank.Transfers
import CppBackend.SharedMutexs.Finish
import CppBackend.LinuxProcess.Forks
import CppBackend.LinuxProcess.Reaping
import CppBackend.LinuxProcess.Lines
import CppBackend.LinuxProcess.Wait
import CppBackend.ReactorServer.Replies
import CppBackend.MultiReactor.Model
import CppBackend.MultiReactor.Steps
import CppBackend.MultiReactor.Callbacks
