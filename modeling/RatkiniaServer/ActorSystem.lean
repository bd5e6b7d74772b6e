import RatkiniaServer.Actor.DynamicActor
import RatkiniaServer.MainServer

/-!
# The registered actors, run by the worker threads

`ActorRegistry` finds an actor by its name and lists the actors in the order in which they are run.
The system below puts the rounds of the main server and the mailboxes of the actors together: a worker
thread that is inside `actor->Run()` takes the steps of the `Run` of that actor, and messages are pushed
at any time, by any thread.
-/

namespace RatkiniaServer

universe u

/-- `ActorRegistry`: an actor stands here as its name. -/
structure ActorRegistry where
  actors : List String
  actorRunQueue : List String

namespace ActorRegistry

/-- A new registry. -/
def empty : ActorRegistry := ⟨[], []⟩

/-- `Register`: `emplace` keeps an actor that already has the name, and the run queue gets whichever
actor has the name then. -/
def register (r : ActorRegistry) (name : String) : ActorRegistry where
  actors := if name ∈ r.actors then r.actors else r.actors ++ [name]
  actorRunQueue := r.actorRunQueue ++ [name]

/-- The registry after actors of these names have been created. -/
def create (names : List String) : ActorRegistry := names.foldl register empty

end ActorRegistry

/-- The server, the mailbox of the actor of each name and where each worker is in a `Run`. The `Run`
that a mailbox is in is its runner's: the field `pc` of the mailboxes stays `idle`. -/
structure ActorSystem (n : Nat) (M : Type u) where
  server : MainServer.State n
  actor : String → DynamicActor M
  runPc : Fin n → RunPc

namespace ActorSystem

variable {n : Nat} {M : Type u}

/-- Before the first round. -/
def init (WorkerThreadsCount : UInt32) (messageHandlers : String → UInt32 → Bool)
    (typeIndex : M → UInt32) : ActorSystem WorkerThreadsCount.toNat M where
  server := MainServer.init WorkerThreadsCount
  actor name := DynamicActor.init (messageHandlers name) typeIndex
  runPc _ := .idle

/-- The mailbox of an actor, as a thread sees it that is at `pc` of its `Run`. -/
def seen (s : ActorSystem n M) (name : String) (pc : RunPc) : DynamicActor M :=
  { s.actor name with pc := pc }

/-- `TryPushMessageTo`: whether there is an actor of the name; if so, the message is pushed. -/
def tryPushMessageTo (r : ActorRegistry) (s : ActorSystem n M) (name : String) (message : Option M) :
    Bool × ActorSystem n M :=
  if name ∈ r.actors then
    (true, { s with
      actor := Function.update s.actor name ((s.actor name).pushMessage message) })
  else (false, s)

/-- What worker `t` has made of the mailbox of an actor, and where it is now. -/
def setActor (s : ActorSystem n M) (t : Fin n) (name : String) (a : DynamicActor M) :
    ActorSystem n M :=
  { s with
    actor := Function.update s.actor name { a with pc := .idle }
    runPc := Function.update s.runPc t a.pc }

/-- What worker `t` does in the `Run` of the actor of a name. After `Tick`, the call returns. -/
def stepRun (r : ActorRegistry) (s : ActorSystem n M) (t : Fin n) (name : String) :
    Option (ActorSystem n M) :=
  (s.seen name (s.runPc t)).run.bind fun a =>
    match a.pc with
    | .idle => (MainServer.stepWorker r.actorRunQueue.length s.server t).map fun server =>
        { s.setActor t name a with server := server }
    | _ => some (s.setActor t name a)

/-- `WorkerThreadBody`, with the steps of `actor->Run()`. -/
def stepWorker (r : ActorRegistry) (s : ActorSystem n M) (t : Fin n) : Option (ActorSystem n M) :=
  match (s.server.worker t).pc with
  | .running i => r.actorRunQueue[i]?.bind fun name => s.stepRun r t name
  | _ => (MainServer.stepWorker r.actorRunQueue.length s.server t).map fun server =>
      { s with server := server }

inductive Action (n : Nat) (M : Type u) where
  | main
  | worker (t : Fin n)
  /-- a call by any thread, handlers and the network threads included -/
  | tryPushMessageTo (name : String) (message : Option M)

def step (r : ActorRegistry) (WorkerThreadsCount : UInt32) (s : ActorSystem n M) :
    Action n M → Option (ActorSystem n M)
  | .main => (MainServer.stepMain WorkerThreadsCount s.server).map fun server =>
      { s with server := server }
  | .worker t => s.stepWorker r t
  | .tryPushMessageTo name message => some (s.tryPushMessageTo r name message).2

/-- The worker is in the `Run` of the actor of the name. -/
def Runs (r : ActorRegistry) (s : ActorSystem n M) (t : Fin n) (name : String) : Prop :=
  ∃ i, (s.server.worker t).pc = .running i ∧ r.actorRunQueue[i]? = some name

/-- Where the `Run` of an actor is: at the place its runner is at, or nowhere. -/
def RunAt (r : ActorRegistry) (s : ActorSystem n M) (name : String) (pc : RunPc) : Prop :=
  (∃ t, s.Runs r t name ∧ s.runPc t = pc) ∨ ((∀ t, ¬ s.Runs r t name) ∧ pc = .idle)

end ActorSystem

end RatkiniaServer
