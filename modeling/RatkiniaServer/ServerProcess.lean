import RatkiniaServer.ActorSystem
import RatkiniaServer.Startup

/-!
# The server, once it is built

`NetworkServer` with all of its threads, the actors, and the threads that run them. They meet in
`TryPushMessageTo`: what `PostReceive` and `SessionCleanupRoutine` push goes into the mailbox of the
associated actor, and a `CRASH_COND` fires if there is no such actor.
-/

namespace RatkiniaServer

namespace NetworkServer

/-- The arguments of `TryPushMessageTo`, if a step calls it. -/
def pushRequest (s : NetworkServer) : Action → Option (String × ActorMessage)
  | .start _ _ => none
  | .run t answers =>
    match s.pc t with
    | .draining o _ => answers.message.map fun message =>
        (s.associatedActor o, .cts (contextOf o) message.1 message.2)
    | .cleanupErased context actor _ => actor.map fun name => (name, .sessionDisconnected context)
    | _ => none

end NetworkServer

/-- The network threads with the session table, and the actors with the threads of `MainServer`. -/
structure ServerProcess (n : Nat) where
  network : NetworkServer
  actors : ActorSystem n ActorMessage

namespace ServerProcess

variable {n : Nat}

/-- Before the first connection and the first round. -/
def init (initialAssociatedActor : String) (WorkerThreadsCount : UInt32)
    (messageHandlers : String → UInt32 → Bool) (typeIndex : ActorMessage → UInt32) :
    ServerProcess WorkerThreadsCount.toNat where
  network := .init initialAssociatedActor
  actors := .init WorkerThreadsCount messageHandlers typeIndex

/-- A step of `NetworkServer`, with the mailboxes behind `TryPushMessageTo`. -/
def serve (r : ActorRegistry) (s : ServerProcess n) (a : NetworkServer.Action) :
    Option (ServerProcess n) :=
  match s.network.pushRequest a with
  | none => (s.network.step a).map fun network => { s with network := network }
  | some (name, message) =>
    let (delivered, actors) := s.actors.tryPushMessageTo r name (some message)
    (s.network.step (a.pushing delivered)).map fun network => ⟨network, actors⟩

inductive Action (n : Nat)
  | network (a : NetworkServer.Action)
  | main
  | worker (t : Fin n)

def step (r : ActorRegistry) (WorkerThreadsCount : UInt32)
    (s : ServerProcess WorkerThreadsCount.toNat) :
    Action WorkerThreadsCount.toNat → Option (ServerProcess WorkerThreadsCount.toNat)
  | .network a => s.serve r a
  | .main => (s.actors.step r WorkerThreadsCount .main).map fun actors => { s with actors := actors }
  | .worker t =>
    (s.actors.step r WorkerThreadsCount (.worker t)).map fun actors => { s with actors := actors }

end ServerProcess

end RatkiniaServer
