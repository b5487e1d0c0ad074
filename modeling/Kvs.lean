import Kvs.Base.Bytes
import Kvs.Lib.LockSystem
import Kvs.Lib.TwoPhase
import Kvs.Lib.Assoc
import Kvs.Lib.LockTrace
import Kvs.Lib.LockOrder
import Kvs.Server.Table
import Kvs.Correctness.TableMap
import Kvs.Server.Sort
import Kvs.Correctness.Serializable
import Kvs.Correctness.Deadlock
import Kvs.Correctness.Locks
import Kvs.Correctness.Show
import Kvs.Server.Parser
import Kvs.Correctness.Grammar
import Kvs.Correctness.RoundTrip
import Kvs.Correctness.Resync
import Kvs.Base.Buffer
import Kvs.Client.Api
import Kvs.Server.Session
import Kvs.Correctness.SessionDecode
import Kvs.Lib.Mutex
import Kvs.Lib.BoundedBuffer
import Kvs.Server.Register
import Kvs.Lib.Transition
import Kvs.Server.StartUp
import Kvs.Correctness.StartUp
import Kvs.Correctness.Registration
import Kvs.Correctness.Queue
import Kvs.Server.Manager
import Kvs.Server.Sequential
import Kvs.Correctness.ShowOrder
import Kvs.Correctness.Subscripts
import Kvs.Lib.Keyed
import Kvs.Exercise1.Operations
import Kvs.Correctness.Exercise1
import Kvs.Server.Backup
import Kvs.Correctness.Backups
import Kvs.Lib.Dispenser
import Kvs.Server.Jobs
import Kvs.Correctness.Jobs
import Kvs.Client.Notif
import Kvs.Correctness.Notify
import Kvs.Correctness.Answers
import Kvs.Correctness.SubscriberMap
import Kvs.Lib.SlotSet
import Kvs.Correctness.Subscriptions
import Kvs.Correctness.Confinement
import Kvs.Client.Parser
import Kvs.Correctness.KeyLists
import Kvs.Correctness.LastLine
import Kvs.Correctness.SubscriberSets
import Kvs.Correctness.NotifyClients
import Kvs.Lib.Stores
import Kvs.Server.RecordBuffer
import Kvs.Correctness.Records
import Kvs.Server.Frames
import Kvs.Correctness.Frames
import Kvs.Server.ParserStores
import Kvs.Client.ParserStores
import Kvs.Correctness.StringStores
import Kvs.Correctness.NumberStores
import Kvs.Lib.Loop
import Kvs.Server.Loops
import Kvs.Correctness.Termination
import Kvs.Server.Lifecycle
import Kvs.Correctness.Lifecycle
import Kvs.Server.Arrays
import Kvs.Correctness.Leftovers
import Kvs.Correctness.Reaping
import Kvs.Server.Directory
import Kvs.Correctness.Directory
import Kvs.Correctness.Paths
import Kvs.Client.Commands
import Kvs.Correctness.ClientRoundTrip
import Kvs.Correctness.ClientLines
import Kvs.Lib.Gate
import Kvs.Lib.Workload
import Kvs.Server.Pool
import Kvs.Correctness.Pool
import Kvs.Lib.LockProgress
import Kvs.Correctness.PoolProgress
import Kvs.Server.PoolBackups
import Kvs.Correctness.PoolBackups
import Kvs.Exercise3.Operations
import Kvs.Correctness.Exercise3
import Kvs.Lib.Heap
import Kvs.Server.HeapTable
import Kvs.Correctness.HeapTable
import Kvs.Lib.Framing
import Kvs.System.Session
import Kvs.Correctness.SessionProtocol
import Kvs.Correctness.SessionProgress
import Kvs.Correctness.SessionPaced
import Kvs.Correctness.SessionHangs
