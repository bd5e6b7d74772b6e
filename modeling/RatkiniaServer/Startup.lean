import RatkiniaServer.NetworkServer

/-!
# The constructor of `MainServer`

The members are built in the order of their declaration: `ActorRegistry`, `ActorMessageDispatcher`,
`NetworkServer`, which starts its IOCP workers and posts its `AcceptEx` calls, `ActorNetworkInterface`
and `DbConnectionPool`. The body then starts the worker threads and creates `A_Auth`. Between any two
of its steps the IOCP workers may serve clients.
-/

namespace RatkiniaServer

namespace NetworkServer

/-- The name that a step passes to `TryPushMessageTo`, if it calls it. -/
def pushTarget (s : NetworkServer) : Action → Option String
  | .start _ _ => none
  | .run t answers =>
    match s.pc t with
    | .draining o _ => answers.message.map fun _ => s.associatedActor o
    | .cleanupErased _ actor _ => actor
    | _ => none

/-- The step with the given result of `TryPushMessageTo`. -/
def Action.pushing (delivered : Bool) : Action → Action
  | .start t handler => .start t handler
  | .run t answers => .run t { answers with delivered := delivered }

/-- The name that a call of `ChangeAssociatedActor` or `TryChangeAssociatedActor` is given. -/
def Handler.newActorName : Handler → Option String
  | .changeAssociatedActor _ newActorName => some newActorName
  | .tryChangeAssociatedActor _ _ newActorName => some newActorName
  | _ => none

/-- The name that a step is given. -/
def Action.newActorName : Action → Option String
  | .start _ handler => handler.newActorName
  | .run _ _ => none

end NetworkServer

namespace Startup

/-- How many threads and `AcceptEx` calls the constructor starts: `hardware_concurrency()`,
`AcceptPoolSize` and `WorkerThreadsCount`. -/
structure Sizes where
  hardwareConcurrency : Nat
  acceptPoolSize : Nat
  workerThreadsCount : Nat

/-- The next operation of the constructor; that of `NetworkServer` is at the listening socket, in the
loop that starts the IOCP workers or in the loop over `AcceptPool`. -/
inductive Pc
  | actorRegistry
  | actorMessageDispatcher
  | listen
  | networkWorkers
  | acceptPool
  | actorNetworkInterface
  | dbConnectionPool
  | workerThreads
  | createAuth
  | returned
  deriving DecidableEq

end Startup

/-- `MainServer` while it is being built. -/
structure Startup where
  pc : Startup.Pc
  /-- The keys of `actors_` in `ActorRegistry`. -/
  actors : List String
  network : NetworkServer
  /-- The IOCP workers started: the threads from 0 on. -/
  networkWorkers : Nat
  /-- The slots of `AcceptPool` prepared. -/
  acceptSlots : Nat
  /-- The threads of `MainServer` started. -/
  workerThreads : Nat
  /-- A `CRASH_COND` on `TryPushMessageTo` has fired. -/
  aborted : Bool

namespace Startup

/-- The name of `A_Auth`, and the `InitialAssociatedActor` of `NetworkServer`. -/
def authName : String := "A_Auth"

/-- Before the constructor. -/
def initial : Startup :=
  ⟨.actorRegistry, [], NetworkServer.init authName, 0, 0, 0, false⟩

/-- `ActorRegistry::TryPushMessageTo`, up to its effect on the actor: the value returned. -/
def tryPushMessageTo (actors : List String) (actorName : String) : Bool := actors.contains actorName

/-- `ActorRegistry::Register`. -/
def register (actors : List String) (name : String) : List String := actors ++ [name]

/-- A step of the constructor. -/
def construct (sizes : Sizes) (w : Startup) : Option Startup :=
  match w.pc with
  | .actorRegistry => some { w with pc := .actorMessageDispatcher }
  | .actorMessageDispatcher => some { w with pc := .listen }
  | .listen => some { w with pc := .networkWorkers }
  | .networkWorkers =>
    if w.networkWorkers < sizes.hardwareConcurrency then
      some { w with networkWorkers := w.networkWorkers + 1 }
    else some { w with pc := .acceptPool }
  | .acceptPool =>
    if w.acceptSlots < sizes.acceptPoolSize then
      some { w with acceptSlots := w.acceptSlots + 1 }
    else some { w with pc := .actorNetworkInterface }
  | .actorNetworkInterface => some { w with pc := .dbConnectionPool }
  | .dbConnectionPool => some { w with pc := .workerThreads }
  | .workerThreads =>
    if w.workerThreads < sizes.workerThreadsCount then
      some { w with workerThreads := w.workerThreads + 1 }
    else some { w with pc := .createAuth }
  | .createAuth => some { w with pc := .returned, actors := register w.actors authName }
  | .returned => none

/-- What a thread may begin with: an IOCP worker that has been started takes an accepted connection,
if an `AcceptEx` has been posted, or another completion. The calls of actors are possible at any
time. -/
def enabled (w : Startup) : NetworkServer.Action → Bool
  | .start t .accept => decide (t < w.networkWorkers) && decide (0 < w.acceptSlots)
  | .start t (.completion _ _ _ _) => decide (t < w.networkWorkers)
  | _ => true

/-- A step of `NetworkServer`. Where `TryPushMessageTo` returns false, the `CRASH_COND` around it
fires. -/
def serve (w : Startup) (a : NetworkServer.Action) : Option Startup :=
  if w.enabled a then
    match w.network.pushTarget a with
    | none => (w.network.step a).map fun network => { w with network := network }
    | some actorName =>
      if tryPushMessageTo w.actors actorName then
        (w.network.step (a.pushing true)).map fun network => { w with network := network }
      else some { w with aborted := true }
  else none

/-- A step of the constructor or of a thread of the server. -/
inductive Action
  | construct
  | serve (a : NetworkServer.Action)

/-- A step, until a `CRASH_COND` fires. -/
def step (sizes : Sizes) (w : Startup) (a : Action) : Option Startup :=
  if w.aborted then none
  else
    match a with
    | .construct => w.construct sizes
    | .serve a => w.serve a

/-! ## Conditions on a step -/

/-- The name that the step passes to `TryPushMessageTo`, if it calls it. -/
def pushTarget (w : Startup) : Action → Option String
  | .construct => none
  | .serve a => w.network.pushTarget a

/-- The name that a call of `ChangeAssociatedActor` or `TryChangeAssociatedActor` is given. -/
def Action.newActorName : Action → Option String
  | .construct => none
  | .serve a => a.newActorName

/-- The associated actor is only ever changed to a registered one. -/
def ChangesToRegistered (w : Startup) (a : Action) : Prop :=
  ∀ name ∈ a.newActorName, name ∈ w.actors

instance (w : Startup) (a : Action) : Decidable (w.ChangesToRegistered a) :=
  inferInstanceAs (Decidable (∀ name ∈ a.newActorName, name ∈ w.actors))

/-- A message or a notice is pushed only after `Create<A_Auth>`. -/
def PushesAfterCreate (w : Startup) (a : Action) : Prop :=
  (w.pushTarget a).isSome = true → w.pc = .returned

instance (w : Startup) (a : Action) : Decidable (w.PushesAfterCreate a) :=
  inferInstanceAs (Decidable (_ → _))

end Startup

end RatkiniaServer
