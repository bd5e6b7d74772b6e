import RatkiniaServer.Database.DbServiceAccount
import RatkiniaServer.ServerProcess

/-!
# The server with `A_Auth`

The worker that is in the `Run` of `A_Auth` passes the messages to its two handlers and calls `Tick`.
`HandleCts` is generated: here it is a parameter that finds the request of a client in a message, if
there is one. The handlers for all other messages of clients do nothing.

The answers of `A_Auth` are calls of `SendMessageTo` and `DisconnectSession`, which lock
`sessionsMutex_`. The worker makes them before it goes on in the handler or in the loop of `Tick`. A
worker of `MainServer` is the thread of its number in the network, and all other threads there are IOCP
workers.

No other actor acquires a connection of `DbConnectionPool`, so `A_Auth` does not wait for one: `Acquire`
and the calls of `DbService_Account` are part of the step that makes them.
-/

namespace RatkiniaServer

/-- The message that the next step of `Run` passes on. -/
def DynamicActor.handed {M : Type*} (a : DynamicActor M) : Option M :=
  match a.pc with
  | .looping index i size => if i = size then none else ((a.messageQueue index)[i]?).join
  | _ => none

/-- What a worker sees that is in the `Run` of the actor of a name. -/
def ActorSystem.inRun {n : Nat} {M : Type*} (r : ActorRegistry) (s : ActorSystem n M) (t : Fin n)
    (name : String) : Option (DynamicActor M) :=
  match (s.server.worker t).pc with
  | .running i => if r.actorRunQueue[i]? = some name then some (s.seen name (s.runPc t)) else none
  | _ => none

/-- The requests that `HandleCts` passes to handlers of `A_Auth`. -/
inductive AuthRequest
  | register (account password : Bytes)
  | login (account password : Bytes)

/-- The call that a response is: a message is sent by `WriteMessage`, which is `SendMessageTo`. -/
def Response.call : Response → NetworkServer.Handler
  | .registerResponse context _ _ | .loginResponse context _ | .notifyFatal context _ =>
    .sendMessageTo context
  | .disconnectSession context => .disconnectSession context

/-- The responses that `A_Auth` asks for in an event. -/
def A_Auth.Event.responses : A_Auth.Event → List Response
  | .refused responses => responses
  | .answered _ response => [response]
  | .accepted _ | .disconnected _ => []

/-- What an IOCP worker begins with. -/
def NetworkServer.Handler.ofCompletionPort : NetworkServer.Handler → Bool
  | .accept | .completion _ _ _ _ => true
  | _ => false

def NetworkServer.Pc.isIdle : NetworkServer.Pc → Bool
  | .idle => true
  | _ => false

/-- The server, and what is behind the mailbox of `A_Auth`. -/
structure AuthProcess (n : Nat) where
  process : ServerProcess n
  auth : AuthService
  /-- The calls that the worker in the `Run` of `A_Auth` has still to make before it goes on. -/
  calls : List Response

namespace AuthProcess

variable {n : Nat}

/-- The actors that `MainServer` creates. -/
def registry : ActorRegistry := .create [Startup.authName]

/-- The indices of the two types of messages. -/
def typeIndex (cts sessionDisconnected : UInt32) : ActorMessage → UInt32
  | .cts _ _ _ => cts
  | .sessionDisconnected _ => sessionDisconnected

/-- Before the first connection, the first round and the first account. `A_Auth` registers a handler
for both types of messages. -/
def init (WorkerThreadsCount cts sessionDisconnected : UInt32) :
    AuthProcess WorkerThreadsCount.toNat where
  process := .init Startup.authName WorkerThreadsCount
    (fun _ index => decide (index = cts) || decide (index = sessionDisconnected))
    (typeIndex cts sessionDisconnected)
  auth := .initial
  calls := []

/-- `Handle`. -/
def handle (HandleCts : UInt16 → Bytes → Option AuthRequest) : ActorMessage → Option AuthService.Action
  | .cts context messageType body =>
    match HandleCts messageType body with
    | some (.register account password) => some (.registerRequest context account password)
    | some (.login account password) => some (.loginRequest context account password)
    | none => none
  | .sessionDisconnected context => some (.sessionDisconnected context)

/-- What the next step of the `Run` of `A_Auth` does behind the mailbox. After the vector has been
cleared, `Run` calls `Tick`; it returns when the loop of `Tick` has been left. -/
def runAuth (b : Bcrypt) (HandleCts : UInt16 → Bytes → Option AuthRequest)
    (a : DynamicActor ActorMessage) (auth : AuthService) : Option AuthService :=
  match a.pc with
  | .looping _ _ _ =>
    match a.handed.bind (handle HandleCts) with
    | some act => auth.step b act
    | none => some auth
  | .clearing => auth.step b .tickBegin
  | .tick => if auth.world.auth.ticking then none else some auth
  | _ => some auth

/-- The steps of all threads. `call` begins a call of the network, whose steps are those of `network`.
An iteration of the loop of `Tick` is a step of the worker that is in the `Run` of `A_Auth`; the last
three steps are those of `AuthBackgroundThreadBody`. -/
inductive Action (n : Nat)
  | network (a : NetworkServer.Action)
  | main
  | worker (t : Fin n)
  | call (t : Fin n)
  | tickIterate (t : Fin n) (inserted : Option UInt64)
  | backgroundTake
  | backgroundExecute (salt : Bytes)
  | backgroundPush

/-- What `A_Auth` has asked of the network between two states. -/
def responsesSince (before after : AuthService) : List Response :=
  (after.world.history.drop before.world.history.length).flatMap A_Auth.Event.responses

/-- What `A_Auth` asks of the network becomes calls. -/
def setAuth (s : AuthProcess n) (auth : AuthService) : AuthProcess n :=
  { s with auth := auth, calls := s.calls ++ responsesSince s.auth auth }

/-- A step behind the mailbox. -/
def stepAuth (b : Bcrypt) (s : AuthProcess n) (act : AuthService.Action) : Option (AuthProcess n) :=
  (s.auth.step b act).map s.setAuth

/-- A step of the server that is not one in the `Run` of `A_Auth`. -/
def stepProcess {WorkerThreadsCount : UInt32} (s : AuthProcess WorkerThreadsCount.toNat)
    (act : ServerProcess.Action WorkerThreadsCount.toNat) :
    Option (AuthProcess WorkerThreadsCount.toNat) :=
  (s.process.step registry WorkerThreadsCount act).map fun process => { s with process := process }

/-- The worker is in a call of the network, or has one to make. -/
def inCalls (s : AuthProcess n) (t : Fin n) : Bool :=
  !s.calls.isEmpty || !(s.process.network.pc t).isIdle

def step (b : Bcrypt) (HandleCts : UInt16 → Bytes → Option AuthRequest)
    {WorkerThreadsCount : UInt32} (s : AuthProcess WorkerThreadsCount.toNat) :
    Action WorkerThreadsCount.toNat → Option (AuthProcess WorkerThreadsCount.toNat)
  | .network (.start t handler) =>
    if WorkerThreadsCount.toNat ≤ t ∧ handler.ofCompletionPort then
      s.stepProcess (.network (.start t handler))
    else none
  | .network (.run t answers) => s.stepProcess (.network (.run t answers))
  | .main => s.stepProcess .main
  | .worker t =>
    match s.process.actors.inRun registry t Startup.authName with
    | none => s.stepProcess (.worker t)
    | some a =>
      if s.inCalls t then none
      else (runAuth b HandleCts a s.auth).bind fun auth => (s.setAuth auth).stepProcess (.worker t)
  | .call t =>
    match s.process.actors.inRun registry t Startup.authName, s.calls with
    | some _, response :: calls =>
      { s with calls := calls }.stepProcess (.network (.start t response.call))
    | _, _ => none
  | .tickIterate t inserted =>
    match s.process.actors.inRun registry t Startup.authName with
    | none => none
    | some _ => if s.inCalls t then none else s.stepAuth b (.tickIterate inserted)
  | .backgroundTake => s.stepAuth b .backgroundTake
  | .backgroundExecute salt => s.stepAuth b (.backgroundExecute salt)
  | .backgroundPush => s.stepAuth b .backgroundPush

end AuthProcess

end RatkiniaServer
