import RatkiniaServer.MemoryPool.Proofs.ListSoundness
import RatkiniaServer.MemoryPool.Proofs.SparseList
import RatkiniaServer.MemoryPool.Proofs.SparseArray
import RatkiniaServer.Proofs.EntityManager
import RatkiniaServer.GlobalObject.Proofs.GPossession
import RatkiniaServer.Actor.Proofs.LoginHistory
import RatkiniaServer.Actor.Proofs.DynamicActor
import RatkiniaServer.Proofs.ReceiveRing
import RatkiniaServer.Proofs.SendQueue
import RatkiniaServer.Proofs.MessageDecoder
import RatkiniaServer.Proofs.SendHandlers
import RatkiniaServer.Proofs.ReceiveHandlers
import RatkiniaServer.Proofs.DisconnectNotices
import RatkiniaServer.Proofs.SessionsMutex
import RatkiniaServer.Proofs.MainServer
import RatkiniaServer.Proofs.TlsObjects
import RatkiniaServer.Proofs.Outgoing
import RatkiniaServer.Proofs.MessageStream
import RatkiniaServer.Proofs.Startup
import RatkiniaServer.Actor.Proofs.AuthJobs
import RatkiniaServer.Actor.Proofs.Passwords
import RatkiniaServer.Proofs.PopBuffer
import RatkiniaServer.Proofs.PostReceive
import RatkiniaServer.Proofs.SpscRingBuffer
import RatkiniaServer.Proofs.MpscMessageBodyPool
import RatkiniaServer.Floweryclover.Proofs.ParallelExecutor
import RatkiniaServer.Floweryclover.Proofs.WorkerThreads
import RatkiniaServer.MemoryPool.Proofs.EraseIf
import RatkiniaServer.Proofs.EntityVersions
import RatkiniaServer.Proofs.SendRing
import RatkiniaServer.Proofs.SerializingEnqueue
import RatkiniaServer.MemoryPool.Proofs.ElementLifetimes
import RatkiniaServer.MemoryPool.Proofs.FreeListPool
import RatkiniaServer.GlobalObject.Proofs.GPlayerCharacters
import RatkiniaServer.Proofs.RingSizes
import RatkiniaServer.Proofs.ActorSystem
import RatkiniaServer.Database.Proofs.DbServiceAccount
import RatkiniaServer.Database.Proofs.DbConnectionPool
import RatkiniaServer.Proofs.CompletionPort
import RatkiniaServer.Proofs.ServerProcess
import RatkiniaServer.Proofs.AuthProcess
import RatkiniaServer.Proofs.Rounds
import RatkiniaServer.Proofs.AuthSteps
import RatkiniaServer.Proofs.AuthAnswers
import RatkiniaServer.Proofs.NetworkCalls
import RatkiniaServer.Proofs.AuthCalls
import RatkiniaServer.Database.Proofs.Logins
