import RatkiniaServer.AuthJob
import RatkiniaServer.Lib.SharedMutex
import RatkiniaServer.Lib.Transition

/-!
# `NetworkServer`

The session table and the threads that work on it: the IOCP workers with `PostAccept`, `PostReceive`,
`PostSend`, the failed-I/O branch and the InitiateSend handler, the actors with `SendMessageTo`,
`DisconnectSession` and the two calls that change the associated actor, and `SessionCleanupRoutine`,
which both call. Any number of threads may run any of them. A step is a critical section, a single
access to an atomic, or a single access to the table.

Of a session the model has what its life cycle rests on: the flags of its operations, `shouldClose_`,
the associated actor and the operations that are out. What its buffers, OpenSSL and the sockets make a
call return is arbitrary. Sessions are numbered in the order in which they are made; the number stands
for the address of the `Session`.
-/

namespace RatkiniaServer

/-- The operations of a session: `IoType_Send`, `IoType_Receive` and `IoType_InitiateSend`. -/
inductive IoType
  | send
  | receive
  | initiateSend
  deriving DecidableEq

/-- The messages that `NetworkServer` pushes to actors: `Msg_Cts`, whose `BodySize` is the length of
the body, and `Msg_SessionDisconnected`. -/
inductive ActorMessage
  | cts (context : UInt32) (messageType : UInt16) (body : Bytes)
  | sessionDisconnected (context : UInt32)
  deriving DecidableEq

/-- The handlers that call `TrySendAsync`. -/
inductive SendHandler
  | postSend
  | initiateSend
  deriving DecidableEq

namespace NetworkServer

/-! ## States -/

/-- Where a thread is, with its local variables.

- `PostAccept`: before the table is locked, at `try_emplace`, at the first section of
  `TryReceiveAsync` and in `TryReceiveAsync` with the flag set.
- The failed-I/O branch: at `PostIoFailed`.
- `PostSend` and the InitiateSend handler: before the table is locked, and at `TryPostSend` and
  `PostInitiateSend`. Then in `TrySendAsync`: at the first section, in the loop and at `WSASend`.
- `PostReceive`: before the table is locked, at `TryPostReceive`, in it with the flag cleared, at the
  first section of `TryReceiveAsync`, in `TryReceiveAsync` with the flag set, and in the loop over
  `PeekReceivedMessage`.
- `SendMessageTo`: before the table is locked, at `find`, at `InitiateSendAsync` and at
  `PostQueuedCompletionStatus`.
- `ChangeAssociatedActor`, or with `current` `TryChangeAssociatedActor`: before the table is locked
  and at `find`.
- `SessionCleanupRoutine`: before the table is locked, in the empty section, at the first `find`, at
  `Cleanup` in `Close`, at the section of `Close`, before the table is locked to erase, at the second
  `find`, and before the actor is notified, if a session has been erased. `held` tells that the
  InitiateSend handler has called it, which still holds `sessionsMutex_`. -/
inductive Pc
  | idle
  | acceptCreated (o : Nat)
  | acceptLocked (o : Nat)
  | acceptEmplaced (o : Nat)
  | acceptReceiving (o : Nat)
  | failed (type : IoType) (o : Nat)
  | postSend (o : Nat)
  | postSendLocked (o : Nat)
  | initiateSend (o : Nat)
  | initiateSendLocked (o : Nat)
  | trySend (handler : SendHandler) (o : Nat)
  | sendLoop (handler : SendHandler) (o : Nat)
  | wsaSend (handler : SendHandler) (o : Nat)
  | postReceive (o : Nat) (bytesTransferred : Nat)
  | postReceiveLocked (o : Nat) (bytesTransferred : Nat)
  | received (o : Nat) (bytesTransferred : Nat)
  | rearm (o : Nat)
  | rearming (o : Nat)
  | draining (o : Nat) (value : Bool)
  | message (context : UInt32)
  | messageLocked (context : UInt32)
  | messagePushed (o : Nat)
  | messageInitiating (o : Nat)
  | change (context : UInt32) (current : Option String) (new : String)
  | changeLocked (context : UInt32) (current : Option String) (new : String)
  | cleanup (context : UInt32) (held : Bool)
  | cleanupShared (context : UInt32) (held : Bool)
  | cleanupFind (context : UInt32) (held : Bool)
  | cleanupClose (context : UInt32) (o : Nat) (held : Bool)
  | cleanupTest (context : UInt32) (o : Nat) (held : Bool)
  | cleanupClosed (context : UInt32) (held : Bool)
  | cleanupLocked (context : UInt32) (held : Bool)
  | cleanupErased (context : UInt32) (actor : Option String) (held : Bool)

end NetworkServer

/-- The state of a `NetworkServer`, with `isIoOnline_`, `shouldClose_` and `AssociatedActor` of its
sessions, the threads and the messages pushed to actors, in order. -/
structure NetworkServer where
  initialAssociatedActor : String
  /-- The number of sessions made; `newContext_` is this number in 32 bits. -/
  created : Nat
  sessions : UInt32 → Option Nat
  sessionsMutex : SharedMutex Nat
  isIoOnline : IoType × Nat → Bool
  shouldClose : Nat → Bool
  associatedActor : Nat → String
  /-- How many operations with the `OVERLAPPED` of a session are in flight or completed and queued. -/
  pending : IoType × Nat → Nat
  pc : Nat → NetworkServer.Pc
  pushed : List (String × ActorMessage)

namespace NetworkServer

/-- `Context` of a session, the value that `newContext_.fetch_add` has returned. -/
def contextOf (o : Nat) : UInt32 := UInt32.ofNat o

/-- A new server, with all threads idle. -/
def init (initialAssociatedActor : String) : NetworkServer where
  initialAssociatedActor := initialAssociatedActor
  created := 0
  sessions _ := none
  sessionsMutex := .free
  isIoOnline _ := false
  shouldClose _ := false
  associatedActor _ := initialAssociatedActor
  pending _ := 0
  pc _ := .idle
  pushed := []

variable (s : NetworkServer) (t : Nat)

/-- The thread `t` goes on at `p`. -/
def goto (p : Pc) : NetworkServer := { s with pc := Function.update s.pc t p }

/-- The thread `t` locks `sessionsMutex_` in shared mode and goes on at `p`. -/
def lockShared (p : Pc) : Option NetworkServer :=
  (s.sessionsMutex.lockShared t).map fun m => { s.goto t p with sessionsMutex := m }

/-- The thread `t` unlocks `sessionsMutex_` in shared mode and goes on at `p`. -/
def unlockShared (p : Pc) : NetworkServer :=
  { s.goto t p with sessionsMutex := s.sessionsMutex.unlockShared t }

/-- The thread `t` locks `sessionsMutex_` in exclusive mode and goes on at `p`. -/
def lock (p : Pc) : Option NetworkServer :=
  (s.sessionsMutex.lock t).map fun m => { s.goto t p with sessionsMutex := m }

/-- The thread `t` unlocks `sessionsMutex_` in exclusive mode and goes on at `p`. -/
def unlock (p : Pc) : NetworkServer :=
  { s.goto t p with sessionsMutex := s.sessionsMutex.unlock }

/-- Set or clear a flag of a session. -/
def setOnline (key : IoType × Nat) (value : Bool) : NetworkServer :=
  { s with isIoOnline := Function.update s.isIoOnline key value }

/-- Post an operation of a session. -/
def post (key : IoType × Nat) : NetworkServer :=
  { s with pending := Function.update s.pending key (s.pending key + 1) }

/-- `Close` finds all three flags off. -/
def allOffline (o : Nat) : Bool :=
  !s.isIoOnline (.send, o) && !s.isIoOnline (.receive, o) && !s.isIoOnline (.initiateSend, o)

/-! ## Steps -/

/-- What the code outside makes a call return, should the step ask: whether `TrySendAsync` finds
neither bytes in the TLS ring nor a message, whether its loop ends without a failure, whether
`WSASend` takes the call, whether `TryPostReceive` returns true, whether the TLS ring has room and
`WSARecv` takes the call, what `PeekReceivedMessage` finds, and whether `TryPushMessageTo` returns
true. -/
structure Answers where
  nothingToSend : Bool := false
  sendBuffers : Bool := true
  wsaSend : Bool := true
  receiveBuffers : Bool := true
  wsaRecv : Bool := true
  message : Option (UInt16 × Bytes) := none
  delivered : Bool := true

/-- What a thread that is idle may begin with: `PostAccept`, up to the new session, a completion or a
failure that is queued, or a call of an actor. -/
inductive Handler
  | accept
  | completion (type : IoType) (o : Nat) (success : Bool) (bytesTransferred : Nat)
  | sendMessageTo (context : UInt32)
  | disconnectSession (context : UInt32)
  | changeAssociatedActor (context : UInt32) (newActorName : String)
  | tryChangeAssociatedActor (context : UInt32) (currentActorName newActorName : String)

/-- A step of a thread. -/
inductive Action
  | start (t : Nat) (handler : Handler)
  | run (t : Nat) (answers : Answers)

/-- `TrySendAsync` returns to its handler, which holds the table in shared mode. On a failure
`PostSend` unlocks it and cleans up; the InitiateSend handler cleans up and unlocks it then. -/
def sendReturns (handler : SendHandler) (o : Nat) (value : Bool) : NetworkServer :=
  match handler, value with
  | _, true => s.unlockShared t .idle
  | .postSend, false => s.unlockShared t (.cleanup (contextOf o) false)
  | .initiateSend, false => s.goto t (.cleanup (contextOf o) true)

/-- `SessionCleanupRoutine` returns. -/
def cleanupReturns (held : Bool) : NetworkServer :=
  if held then s.unlockShared t .idle else s.goto t .idle

/-- A step of the thread `t`; `none` where it waits or where a `CRASH_COND` fires. -/
def runStep (answers : Answers) : Option NetworkServer :=
  match s.pc t with
  | .idle => none
  -- PostAccept
  | .acceptCreated o => s.lock t (.acceptLocked o)
  | .acceptLocked o =>
    match s.sessions (contextOf o) with
    | some _ => none
    | none =>
      some { s.unlock t (.acceptEmplaced o) with
        sessions := Function.update s.sessions (contextOf o) (some o) }
  | .acceptEmplaced o =>
    if s.isIoOnline (.receive, o) || s.shouldClose o then
      some (s.goto t (.cleanup (contextOf o) false))
    else some ((s.goto t (.acceptReceiving o)).setOnline (.receive, o) true)
  | .acceptReceiving o =>
    if answers.wsaRecv then some ((s.goto t .idle).post (.receive, o))
    else some ((s.goto t (.cleanup (contextOf o) false)).setOnline (.receive, o) false)
  -- The failed-I/O branch
  | .failed type o =>
    some ((s.goto t (.cleanup (contextOf o) false)).setOnline (type, o) false)
  -- PostSend and the InitiateSend handler
  | .postSend o => s.lockShared t (.postSendLocked o)
  | .postSendLocked o => some ((s.goto t (.trySend .postSend o)).setOnline (.send, o) false)
  | .initiateSend o => s.lockShared t (.initiateSendLocked o)
  | .initiateSendLocked o =>
    some ((s.goto t (.trySend .initiateSend o)).setOnline (.initiateSend, o) false)
  | .trySend handler o =>
    if s.isIoOnline (.send, o) then some (s.sendReturns t handler o true)
    else if s.shouldClose o then some (s.sendReturns t handler o false)
    else if answers.nothingToSend then some (s.sendReturns t handler o true)
    else some ((s.goto t (.sendLoop handler o)).setOnline (.send, o) true)
  | .sendLoop handler o =>
    if answers.sendBuffers then some (s.goto t (.wsaSend handler o))
    else some ((s.sendReturns t handler o false).setOnline (.send, o) false)
  | .wsaSend handler o =>
    if answers.wsaSend then some ((s.sendReturns t handler o true).post (.send, o))
    else some ((s.sendReturns t handler o false).setOnline (.send, o) false)
  -- PostReceive
  | .postReceive o bytesTransferred => s.lockShared t (.postReceiveLocked o bytesTransferred)
  | .postReceiveLocked o bytesTransferred =>
    some ((s.goto t (.received o bytesTransferred)).setOnline (.receive, o) false)
  | .received o bytesTransferred =>
    if answers.receiveBuffers && bytesTransferred > 0 then some (s.goto t (.rearm o))
    else some (s.goto t (.draining o false))
  | .rearm o =>
    if s.isIoOnline (.receive, o) || s.shouldClose o then some (s.goto t (.draining o false))
    else some ((s.goto t (.rearming o)).setOnline (.receive, o) true)
  | .rearming o =>
    if answers.wsaRecv then some ((s.goto t (.draining o true)).post (.receive, o))
    else some ((s.goto t (.draining o false)).setOnline (.receive, o) false)
  | .draining o value =>
    match answers.message with
    | some (messageType, body) =>
      if answers.delivered then
        some { s with
          pushed := s.pushed ++ [(s.associatedActor o, .cts (contextOf o) messageType body)] }
      else none
    | none => some (s.unlockShared t (if value then .idle else .cleanup (contextOf o) false))
  -- SendMessageTo
  | .message context => s.lockShared t (.messageLocked context)
  | .messageLocked context =>
    match s.sessions context with
    | none => some (s.unlockShared t .idle)
    | some o => some (s.goto t (.messagePushed o))
  | .messagePushed o =>
    if s.isIoOnline (.initiateSend, o) then some (s.unlockShared t .idle)
    else some ((s.goto t (.messageInitiating o)).setOnline (.initiateSend, o) true)
  | .messageInitiating o => some ((s.unlockShared t .idle).post (.initiateSend, o))
  -- ChangeAssociatedActor and TryChangeAssociatedActor
  | .change context current new => s.lock t (.changeLocked context current new)
  | .changeLocked context current new =>
    match s.sessions context with
    | none => some (s.unlock t .idle)
    | some o =>
      if current.all (· = s.associatedActor o) then
        some { s.unlock t .idle with associatedActor := Function.update s.associatedActor o new }
      else some (s.unlock t .idle)
  -- SessionCleanupRoutine
  | .cleanup context held => s.lockShared t (.cleanupShared context held)
  | .cleanupShared context held => some (s.unlockShared t (.cleanupFind context held))
  | .cleanupFind context held =>
    match s.sessions context with
    | none => some (s.cleanupReturns t held)
    | some o => some (s.goto t (.cleanupClose context o held))
  | .cleanupClose context o held =>
    some { s.goto t (.cleanupTest context o held) with
      shouldClose := Function.update s.shouldClose o true }
  | .cleanupTest context o held =>
    if s.allOffline o then some (s.goto t (.cleanupClosed context held))
    else some (s.cleanupReturns t held)
  | .cleanupClosed context held => s.lock t (.cleanupLocked context held)
  | .cleanupLocked context held =>
    match s.sessions context with
    | none => some (s.unlock t (.cleanupErased context none held))
    | some o =>
      some { s.unlock t (.cleanupErased context (some (s.associatedActor o)) held) with
        sessions := Function.update s.sessions context none
        shouldClose := Function.update s.shouldClose o true }
  | .cleanupErased _ none held => some (s.cleanupReturns t held)
  | .cleanupErased context (some actor) held =>
    if answers.delivered then
      some { s.cleanupReturns t held with
        pushed := s.pushed ++ [(actor, .sessionDisconnected context)] }
    else none

/-- A thread that is idle begins with a handler. The completion of an InitiateSend never fails. -/
def startStep (handler : Handler) : Option NetworkServer :=
  match s.pc t with
  | .idle =>
    match handler with
    | .accept =>
      some { s.goto t (.acceptCreated s.created) with
        created := s.created + 1
        associatedActor := Function.update s.associatedActor s.created s.initialAssociatedActor }
    | .completion type o success bytesTransferred =>
      if s.pending (type, o) = 0 then none
      else
        let s := { s with pending := Function.update s.pending (type, o) (s.pending (type, o) - 1) }
        match success, type with
        | true, .send => some (s.goto t (.postSend o))
        | true, .receive => some (s.goto t (.postReceive o bytesTransferred))
        | true, .initiateSend => some (s.goto t (.initiateSend o))
        | false, .initiateSend => none
        | false, type => some (s.goto t (.failed type o))
    | .sendMessageTo context => some (s.goto t (.message context))
    | .disconnectSession context => some (s.goto t (.cleanup context false))
    | .changeAssociatedActor context newActorName =>
      some (s.goto t (.change context none newActorName))
    | .tryChangeAssociatedActor context currentActorName newActorName =>
      some (s.goto t (.change context (some currentActorName) newActorName))
  | _ => none

/-- A step. -/
def step : Action → Option NetworkServer
  | .start t handler => s.startStep t handler
  | .run t answers => s.runStep t answers

/-! ## Blocking -/

/-- The thread asks for `sessionsMutex_`, in shared or in exclusive mode. -/
def Pc.requests : Pc → Bool
  | .acceptCreated _ | .postSend _ | .initiateSend _ | .postReceive _ _ | .message _ => true
  | .change _ _ _ | .cleanup _ _ | .cleanupClosed _ _ => true
  | _ => false

/-- No thread asks for `sessionsMutex_` while it holds it. -/
def NoSelfBlock : Prop := ∀ t, (s.pc t).requests = true → ¬ s.sessionsMutex.HeldBy t

/-- `TrySendAsync` does not fail in the InitiateSend handler: the flag is on or `shouldClose_` is
clear, the loop ends without a failure and `WSASend` takes the call. -/
def InitiateSendSucceeds : Action → Prop
  | .run t answers =>
    match s.pc t with
    | .trySend .initiateSend o => s.isIoOnline (.send, o) = true ∨ s.shouldClose o = false
    | .sendLoop .initiateSend _ => answers.sendBuffers = true
    | .wsaSend .initiateSend _ => answers.wsaSend = true
    | _ => True
  | .start _ _ => True

/-! ## Dangling sessions -/

/-- The session that the thread has a pointer to, once it is in the table. -/
def Pc.session : Pc → Option Nat
  | .acceptEmplaced o | .acceptReceiving o | .failed _ o => some o
  | .postSend o | .postSendLocked o | .initiateSend o | .initiateSendLocked o => some o
  | .trySend _ o | .sendLoop _ o | .wsaSend _ o => some o
  | .postReceive o _ | .postReceiveLocked o _ | .received o _ | .rearm o | .rearming o => some o
  | .draining o _ | .messagePushed o | .messageInitiating o => some o
  | .cleanupClose _ o _ | .cleanupTest _ o _ => some o
  | _ => none

/-- An operation of the session is out, or a thread has a pointer to it. -/
def Refers (o : Nat) : Prop :=
  (∃ type, s.pending (type, o) ≠ 0) ∨ ∃ t, (s.pc t).session = some o

/-- The session is in the table. -/
def InTable (o : Nat) : Prop := ∃ context, s.sessions context = some o

/-- Whatever points to a session finds it in the table. -/
def NoDangling : Prop := ∀ o, s.Refers o → s.InTable o

/-- The session that the thread has a pointer to without the lock and without an operation of it:
between the first `find` and the end of `Close`, or between the emplacement and the first section of
`TryReceiveAsync`. -/
def Pc.unguarded : Pc → Option Nat
  | .acceptEmplaced o | .cleanupClose _ o _ | .cleanupTest _ o _ => some o
  | _ => none

/-- A session is erased only where all its flags are off and no thread has an unguarded pointer to
it. -/
def ErasesQuiet (a : Action) : Prop :=
  ∀ t answers context held o, a = .run t answers → s.pc t = .cleanupLocked context held →
    s.sessions context = some o → s.allOffline o = true ∧ ∀ u, (s.pc u).unguarded ≠ some o

end NetworkServer

end RatkiniaServer
