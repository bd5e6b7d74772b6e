import RatkiniaServer.Session
import RatkiniaServer.Lib.Threads
import RatkiniaServer.Lib.Transition

/-!
# The send handlers of a session

What any number of threads do to the sending side of one session: `PostSend`, the handlers of a
failed send and of an InitiateSend completion, `PushMessage` with `InitiateSendAsync`, the calls of
`TryProcessSendBuffers` in `TryPostReceive`, and `Close`. The handlers hold `sessionsMutex_` in shared
mode only, so they may all run at the same time. A step is a critical section or a single access to
an atomic; a section that makes several accesses to atomics is several steps, and the mutex is held
across them.

The answers of OpenSSL, of `TryProcessReceiveBuffers` and of `WSASend` are arbitrary.
-/

namespace RatkiniaServer.SendHandlers

open Ring Session

/-! ## States -/

/-- Who has called `TryProcessSendBuffers`. -/
inductive Caller
  | trySendAsync
  | tryPostReceive
  deriving DecidableEq

/-- Where a thread is, with its local variables.

- `TryPostSend`: before the flag is cleared, before `sendTlsBufferHead_` is loaded, before it is
  stored.
- `PostIoFailed`, `PostInitiateSend`.
- `TrySendAsync`: before the first section; in it, with the flag set, before `sendTlsBufferTail_` is
  loaded, before `sendAppQueue_` is looked at; at the call of `TryProcessReceiveBuffers`; behind the
  loop, before `sendTlsBufferHead_` is loaded, before `sendTlsBufferTail_` is loaded, at the call of
  `WSASend`; before a failure clears the flag.
- `TryProcessSendBuffers`: before `sendBuffersProcessMutex_` is locked; in the loop over
  `sendAppQueue_`, before a message is popped and before `SSL_write` gets the one that has been
  popped; before `sendTlsBufferHead_` is loaded; before `sendTlsBufferTail_` is loaded; in the loop
  over `WriteBio`, where `totalEnqueued` is the length of `written`.
- `InitiateSendAsync`; `InitiateSend` at the call of `PostQueuedCompletionStatus`; `Close`. -/
inductive Pc
  | idle
  | postSend (bytesTransferred : Nat)
  | flagCleared (bytesTransferred : Nat)
  | headLoaded (bytesTransferred loadedHead : Nat)
  | postIoFailed
  | postInitiateSend
  | trySendAsync
  | sendOnline
  | sendHeadLoaded (loadedHead : Nat)
  | sendTailLoaded (loadedHead loadedTail : Nat)
  | sendReceiveBuffers
  | sendReady
  | sendReadyHead (loadedHead : Nat)
  | sendReadyTail (loadedHead loadedTail : Nat)
  | sendFailed
  | processSendBuffers (caller : Caller)
  | writing (caller : Caller)
  | sslWriting (caller : Caller) (message : Bytes)
  | fillHead (caller : Caller) (wantRead : Bool)
  | fillTail (caller : Caller) (wantRead : Bool) (loadedHead : Nat)
  | filling (caller : Caller) (wantRead : Bool) (loadedHead loadedTail : Nat) (written : Bytes)
  | initiateSend
  | initiatePosting
  | close

/-- A call of `WSASend`: the range posted and the bytes in it. -/
structure SendCall where
  position : Nat
  length : Nat
  data : Bytes

/-- What has become of the send operation of the session, for which there is one `OVERLAPPED`: it is
in flight, or its completion or its failure is queued. -/
inductive SendIo
  | none
  | inFlight (call : SendCall)
  | completed (bytesTransferred : Nat)
  | failed

/-- The sending side of a session and the threads that work on it. `ioMutex` is the thread that holds
`ioOperationMutexes_[IoType_Send]` across several steps, `processMutex` the one that holds
`sendBuffersProcessMutex_`, and `initiateQueued` the number of InitiateSend completions that are
queued. -/
structure State where
  buffer : Nat → UInt8
  head : Nat
  tail : Nat
  sendAppQueue : List Bytes
  isSendOnline : Bool
  isInitiateOnline : Bool
  shouldClose : Bool
  ioMutex : Option Nat
  processMutex : Option Nat
  sendIo : SendIo
  initiateQueued : Nat
  pc : Nat → Pc
  /-- History: all bytes that `TryProcessSendBuffers` has appended to the ring. -/
  appended : Bytes
  /-- History: the bytes that `WSASend` has completed, in the order of the completions. -/
  completed : Bytes
  /-- History: the number of bytes that the head has been advanced by. -/
  acknowledged : Nat

/-- A new session, with all threads idle. -/
def State.init (buffer : Nat → UInt8) : State :=
  ⟨buffer, 0, 0, [], false, false, false, none, none, .none, 0, fun _ => .idle, [], [], 0⟩

/-- The thread `t` goes on at `p`. -/
def State.goto (s : State) (t : Nat) (p : Pc) : State :=
  { s with pc := Function.update s.pc t p }

/-! ## Steps -/

/-- What `BIO_pending` and `BIO_read` answer. -/
inductive BioAnswer
  | nothingPending
  | bytes (bytes : Bytes)
  | readError

/-- What the code outside answers, should the step ask: `SSL_write`, `WriteBio`,
`TryProcessReceiveBuffers`, and whether `WSASend` takes the call. -/
structure Answers where
  sslWrite : WriteResult := .success
  bio : BioAnswer := .nothingPending
  receiveBuffers : ReceiveBuffersProcessResult := .success
  wsaSend : Bool := true

/-- What a thread that is idle may begin with: `PushMessage` and then `InitiateSend`, the completion or
the failure of a send, the InitiateSend completion, a call of `TryProcessSendBuffers` in the loop of
`TryPostReceive`, or `DisconnectSession`. -/
inductive Handler
  | pushMessage (messageType : UInt16) (body : Bytes)
  | sendCompletion
  | initiateSendCompletion
  | tryPostReceive
  | disconnectSession

/-- A step of a thread, or of the system, where the call in flight completes or fails. -/
inductive Action
  | start (t : Nat) (handler : Handler)
  | run (t : Nat) (answers : Answers)
  | complete (bytesTransferred : Nat)
  | fail

/-- Where a call of `TryProcessSendBuffers` returns to. -/
def Caller.goesOn : Caller → SendBuffersProcessResult → Pc
  | .trySendAsync, .success => .sendReady
  | .trySendAsync, .wantProcessReceiveBuffers => .sendReceiveBuffers
  | .trySendAsync, .failed => .sendFailed
  | .tryPostReceive, .failed => .close
  | .tryPostReceive, _ => .idle

variable (cap : Nat)

/-- The loop of `TryProcessSendBuffers` over `WriteBio`: one iteration, or its end. -/
def fillStep (s : State) (t : Nat) (bio : BioAnswer) (caller : Caller) (wantRead : Bool)
    (loadedHead loadedTail : Nat) (written : Bytes) : Option State :=
  let adjustedTail := (loadedTail + written.length) % cap
  let size :=
    if loadedHead ≤ adjustedTail then adjustedTail - loadedHead
    else cap - loadedHead + adjustedTail
  let enqueuableSize := min (cap - size - 1) (cap - adjustedTail)
  match bio with
  | .nothingPending =>
    let s := { s.goto t (caller.goesOn (if wantRead then .wantProcessReceiveBuffers else .success))
      with processMutex := none }
    if written.length > 0 then
      some { s with
        tail := (loadedTail + written.length) % cap
        appended := s.appended ++ written }
    else some s
  | .readError => some { s.goto t (caller.goesOn .failed) with processMutex := none }
  | .bytes bytes =>
    if enqueuableSize = 0 then some { s.goto t (caller.goesOn .failed) with processMutex := none }
    else if 0 < bytes.length ∧ bytes.length ≤ enqueuableSize then
      some { s.goto t (.filling caller wantRead loadedHead loadedTail (written ++ bytes)) with
        buffer := write s.buffer adjustedTail bytes }
    else none

/-- A step of the thread `t`; `none` where it waits for a mutex. -/
def runStep (s : State) (t : Nat) (answers : Answers) : Option State :=
  match s.pc t with
  | .idle => none
  | .postSend bytesTransferred =>
    if s.ioMutex.isSome then none
    else some { s.goto t (.flagCleared bytesTransferred) with isSendOnline := false }
  | .flagCleared bytesTransferred => some (s.goto t (.headLoaded bytesTransferred s.head))
  | .headLoaded bytesTransferred loadedHead =>
    some { s.goto t .trySendAsync with
      head := (loadedHead + bytesTransferred) % cap
      acknowledged := s.acknowledged + bytesTransferred }
  | .postIoFailed =>
    if s.ioMutex.isSome then none else some { s.goto t .close with isSendOnline := false }
  | .postInitiateSend => some { s.goto t .trySendAsync with isInitiateOnline := false }
  | .trySendAsync =>
    if s.ioMutex.isSome then none
    else if s.isSendOnline then some (s.goto t .idle)
    else if s.shouldClose then some (s.goto t .close)
    else some { s.goto t .sendOnline with ioMutex := some t, isSendOnline := true }
  | .sendOnline => some (s.goto t (.sendHeadLoaded s.head))
  | .sendHeadLoaded loadedHead => some (s.goto t (.sendTailLoaded loadedHead s.tail))
  | .sendTailLoaded loadedHead loadedTail =>
    if loadedHead = loadedTail ∧ s.sendAppQueue.isEmpty then
      some { s.goto t .idle with ioMutex := none, isSendOnline := false }
    else some { s.goto t (.processSendBuffers .trySendAsync) with ioMutex := none }
  | .sendReceiveBuffers =>
    match answers.receiveBuffers with
    | .success => some (s.goto t (.processSendBuffers .trySendAsync))
    | .wantProcessSendBuffers => some (s.goto t .sendReady)
    | .failed => some (s.goto t .sendFailed)
  | .sendReady => some (s.goto t (.sendReadyHead s.head))
  | .sendReadyHead loadedHead => some (s.goto t (.sendReadyTail loadedHead s.tail))
  | .sendReadyTail loadedHead loadedTail =>
    let len :=
      (if loadedTail ≥ loadedHead then loadedTail - loadedHead else cap - loadedHead) % 2 ^ 32
    if answers.wsaSend then
      some { s.goto t .idle with
        sendIo := .inFlight ⟨loadedHead, len, slice s.buffer loadedHead len⟩ }
    else some (s.goto t .sendFailed)
  | .sendFailed =>
    if s.ioMutex.isSome then none else some { s.goto t .close with isSendOnline := false }
  | .processSendBuffers caller =>
    if s.processMutex.isSome then none
    else some { s.goto t (.writing caller) with processMutex := some t }
  | .writing caller =>
    match s.sendAppQueue with
    | [] => some (s.goto t (.fillHead caller false))
    | message :: rest => some { s.goto t (.sslWriting caller message) with sendAppQueue := rest }
  | .sslWriting caller _ =>
    match answers.sslWrite with
    | .success => some (s.goto t (.writing caller))
    | .wantRead => some (s.goto t (.fillHead caller true))
    | .error => some { s.goto t (caller.goesOn .failed) with processMutex := none }
  | .fillHead caller wantRead => some (s.goto t (.fillTail caller wantRead s.head))
  | .fillTail caller wantRead loadedHead =>
    some (s.goto t (.filling caller wantRead loadedHead s.tail []))
  | .filling caller wantRead loadedHead loadedTail written =>
    fillStep cap s t answers.bio caller wantRead loadedHead loadedTail written
  | .initiateSend =>
    if s.isInitiateOnline then some (s.goto t .idle)
    else some { s.goto t .initiatePosting with isInitiateOnline := true }
  | .initiatePosting => some { s.goto t .idle with initiateQueued := s.initiateQueued + 1 }
  | .close => some { s.goto t .idle with shouldClose := true }

/-- A thread that is idle begins with a handler. -/
def startStep (s : State) (t : Nat) (handler : Handler) : Option State :=
  match s.pc t with
  | .idle =>
    match handler with
    | .pushMessage messageType body =>
      some { s.goto t .initiateSend with
        sendAppQueue := s.sendAppQueue ++ [frame messageType body] }
    | .sendCompletion =>
      match s.sendIo with
      | .completed bytesTransferred =>
        some { s.goto t (.postSend bytesTransferred) with sendIo := .none }
      | .failed => some { s.goto t .postIoFailed with sendIo := .none }
      | _ => none
    | .initiateSendCompletion =>
      if s.initiateQueued = 0 then none
      else some { s.goto t .postInitiateSend with initiateQueued := s.initiateQueued - 1 }
    | .tryPostReceive => some (s.goto t (.processSendBuffers .tryPostReceive))
    | .disconnectSession => some (s.goto t .close)
  | _ => none

/-- A step. A call completes with at least one byte of its range, one without bytes with none. -/
def step (s : State) : Action → Option State
  | .start t handler => startStep s t handler
  | .run t answers => runStep cap s t answers
  | .complete bytesTransferred =>
    match s.sendIo with
    | .inFlight call =>
      if bytesTransferred ≤ call.length ∧ (bytesTransferred = 0 → call.length = 0) then
        some { s with
          sendIo := .completed bytesTransferred
          completed := s.completed ++ call.data.take bytesTransferred }
      else none
    | _ => none
  | .fail =>
    match s.sendIo with
    | .inFlight _ => some { s with sendIo := .failed }
    | _ => none

/-! ## What is sent -/

/-- The thread is to advance the head for a completion. -/
def Pc.updatesHead : Pc → Bool
  | .postSend _ | .flagCleared _ | .headLoaded _ _ => true
  | _ => false

/-- The thread has cleared the flag for a completion and not yet advanced the head. -/
def Pc.flagBeforeHead : Pc → Bool
  | .flagCleared _ | .headLoaded _ _ => true
  | _ => false

/-- No completion is queued and no thread is to advance the head for one. -/
def State.NoHeadUpdatePending (s : State) : Prop :=
  (∀ n, s.sendIo ≠ .completed n) ∧ ∀ t, (s.pc t).updatesHead = false

/-- The completed bytes are the first ones appended, and the ring holds the others. -/
def State.SentOnce (s : State) : Prop :=
  s.completed <+: s.appended ∧
  (s.NoHeadUpdatePending →
    getRingBufferSize cap s.head s.tail = s.appended.length - s.completed.length)

/-- `TrySendAsync` does not load the head for `WSASend` while another thread has cleared the flag for
a completion and not yet advanced the head. -/
def HeadSettled (s : State) (a : Action) : Prop :=
  ∀ t answers, a = .run t answers → s.pc t = .sendReady → ∀ u, (s.pc u).flagBeforeHead = false

end RatkiniaServer.SendHandlers
