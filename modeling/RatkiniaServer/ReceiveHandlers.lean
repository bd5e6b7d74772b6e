import RatkiniaServer.SessionRuns
import RatkiniaServer.Lib.Threads

/-!
# The receive handlers of a session

What any number of threads do to the receiving side of one session: `PostAccept` behind the
emplacement, `PostReceive`, the handler of a failed receive and `Close`. `PostReceive` posts the next
receive before it drains the app ring, so the next handler may start while it still drains. A step is
a critical section or a single access to an atomic; what a Peek reads from the ring is one step.

The TLS ring and OpenSSL are represented by what `SSL_read` answers, which is arbitrary, and so is
whether `TryReceiveAsync` can post a receive.
-/

namespace RatkiniaServer.ReceiveHandlers

open Ring Session

/-! ## States -/

/-- Who has called `TryReceiveAsync`. -/
inductive Caller
  | postAccept
  | postReceive
  deriving DecidableEq

/-- Where a thread is, with its local variables; `succeeded` is what `PostReceive` has computed before
it drains.

- `TryPostReceive`: before the flag is cleared, before `receiveBuffersProcessMutex_` is locked.
- `TryProcessReceiveBuffers`: before `receiveAppBufferTail_` is loaded, before `receiveAppBufferHead_`
  is loaded, in the loop over `SSL_read`, where `totalEnqueued` is the length of `written`.
- `TryPostReceive`: at the call of `TryProcessSendBuffers`.
- `TryReceiveAsync`: before the flag is set, before the receive is posted, before a failure clears the
  flag.
- `PeekReceivedMessage`: before `receiveAppBufferHead_` is loaded, before `receiveAppBufferTail_` is
  loaded, before the ring is read. Then before the message is pushed to the actor.
- `PopReceivedMessage`: before `receiveAppBufferHead_` is loaded, before it is stored.
- `PostIoFailed`, `Close`. -/
inductive Pc
  | idle
  | postReceive (bytesTransferred : Nat)
  | processReceiveBuffers (bytesTransferred : Nat)
  | fillTail (bytesTransferred : Nat)
  | fillHead (bytesTransferred loadedTail : Nat)
  | filling (bytesTransferred loadedTail loadedHead : Nat) (written : Bytes)
  | sendBuffers (bytesTransferred : Nat)
  | receiveAsync (caller : Caller)
  | receiveArming (caller : Caller)
  | receiveFailed (caller : Caller)
  | peek (succeeded : Bool)
  | peekHead (succeeded : Bool) (loadedHead : Nat)
  | peekTail (succeeded : Bool) (loadedHead loadedTail : Nat)
  | pushing (succeeded : Bool) (message : MessagePeekResult)
  | popping (succeeded : Bool) (size : Nat)
  | popHead (succeeded : Bool) (size loadedHead : Nat)
  | postIoFailed
  | close

/-- What has become of the receive operation of the session, for which there is one `OVERLAPPED`: it
is in flight, or its completion or its failure is queued. -/
inductive ReceiveIo
  | none
  | inFlight
  | completed (bytesTransferred : Nat)
  | failed
  deriving DecidableEq

/-- The receiving side of a session and the threads that work on it; `processMutex` is the thread that
holds `receiveBuffersProcessMutex_`. -/
structure State where
  buffer : Nat → UInt8
  head : Nat
  tail : Nat
  isReceiveOnline : Bool
  shouldClose : Bool
  processMutex : Option Nat
  receiveIo : ReceiveIo
  pc : Nat → Pc
  /-- History: all bytes that `SSL_read` has returned. -/
  decrypted : Bytes
  /-- History: the bytes that `TryProcessReceiveBuffers` has appended to the ring. -/
  published : Bytes
  /-- History: the messages pushed to the actor. -/
  pushed : List (UInt16 × Bytes)
  /-- History: the number of bytes that the head has been advanced by. -/
  popped : Nat

/-- A new session, which the thread `t` has just emplaced in `PostAccept`. -/
def State.init (buffer : Nat → UInt8) (t : Nat) : State where
  buffer := buffer
  head := 0
  tail := 0
  isReceiveOnline := false
  shouldClose := false
  processMutex := none
  receiveIo := .none
  pc := Function.update (fun _ => .idle) t (.receiveAsync .postAccept)
  decrypted := []
  published := []
  pushed := []
  popped := 0

/-- The thread `t` goes on at `p`. -/
def State.goto (s : State) (t : Nat) (p : Pc) : State :=
  { s with pc := Function.update s.pc t p }

/-! ## Steps -/

/-- What `SSL_read` answers. -/
inductive SslAnswer
  | bytes (bytes : Bytes)
  | zeroReturn
  | wantRead
  | wantWrite
  | error

/-- What the code outside answers, should the step ask: `SSL_read`, `TryProcessSendBuffers`, and
whether the TLS ring has room and `WSARecv` takes the call. -/
structure Answers where
  sslRead : SslAnswer := .wantRead
  sendBuffers : SendBuffersProcessResult := .success
  wsaRecv : Bool := true

/-- What a thread that is idle may begin with: the completion or the failure of a receive, or
`DisconnectSession`. -/
inductive Handler
  | receiveCompletion
  | disconnectSession

/-- A step of a thread, or of the system, where the receive in flight completes or fails. -/
inductive Action
  | start (t : Nat) (handler : Handler)
  | run (t : Nat) (answers : Answers)
  | complete (bytesTransferred : Nat)
  | fail

/-- Where `TryPostReceive` goes on after a call of `TryProcessReceiveBuffers`. -/
def afterReceiveBuffers (bytesTransferred : Nat) : ReceiveBuffersProcessResult → Pc
  | .success => if bytesTransferred > 0 then .receiveAsync .postReceive else .peek false
  | .wantProcessSendBuffers => .sendBuffers bytesTransferred
  | .failed => .peek false

/-- Where `TryPostReceive` goes on after a call of `TryProcessSendBuffers`. -/
def afterSendBuffers (bytesTransferred : Nat) : SendBuffersProcessResult → Pc
  | .success => .processReceiveBuffers bytesTransferred
  | .wantProcessReceiveBuffers =>
    if bytesTransferred > 0 then .receiveAsync .postReceive else .peek false
  | .failed => .peek false

/-- Where a call of `TryReceiveAsync` returns to. -/
def Caller.goesOn : Caller → Bool → Pc
  | .postAccept, true => .idle
  | .postAccept, false => .close
  | .postReceive, value => .peek value

variable (cap messageMaxSize : Nat)

/-- The loop of `TryProcessReceiveBuffers` over `SSL_read`: one iteration, or its end. -/
def fillStep (s : State) (t : Nat) (sslRead : SslAnswer)
    (bytesTransferred loadedTail loadedHead : Nat) (written : Bytes) : Option State :=
  let size :=
    if loadedHead ≤ loadedTail then loadedTail - loadedHead else cap - loadedHead + loadedTail
  let available := cap - size - 1
  let adjustedTail := (loadedTail + written.length) % cap
  let adjustedAvailable := available - written.length
  let enqueuableSize := min adjustedAvailable (cap - adjustedTail)
  let returns (s : State) (result : ReceiveBuffersProcessResult) : State :=
    { s.goto t (afterReceiveBuffers bytesTransferred result) with processMutex := none }
  let storeTail : State :=
    if written.length > 0 then
      { s with tail := (loadedTail + written.length) % cap, published := s.published ++ written }
    else s
  if adjustedAvailable = 0 then some (returns s .failed)
  else
    match sslRead with
    | .bytes bytes =>
      if 0 < bytes.length ∧ bytes.length ≤ enqueuableSize then
        some { s.goto t (.filling bytesTransferred loadedTail loadedHead (written ++ bytes)) with
          buffer := write s.buffer adjustedTail bytes
          decrypted := s.decrypted ++ bytes }
      else none
    | .zeroReturn => some (returns storeTail .success)
    | .wantRead => some (returns storeTail .success)
    | .wantWrite => some (returns storeTail .wantProcessSendBuffers)
    | .error => some (returns s .failed)

/-- A step of the thread `t`; `none` where it waits for a mutex or where a Peek writes past the end of
`ReceiveContiguousPopBuffer`. -/
def runStep (s : State) (t : Nat) (answers : Answers) : Option State :=
  match s.pc t with
  | .idle => none
  | .postReceive bytesTransferred =>
    some { s.goto t (.processReceiveBuffers bytesTransferred) with isReceiveOnline := false }
  | .processReceiveBuffers bytesTransferred =>
    if s.processMutex.isSome then none
    else some { s.goto t (.fillTail bytesTransferred) with processMutex := some t }
  | .fillTail bytesTransferred => some (s.goto t (.fillHead bytesTransferred s.tail))
  | .fillHead bytesTransferred loadedTail =>
    some (s.goto t (.filling bytesTransferred loadedTail s.head []))
  | .filling bytesTransferred loadedTail loadedHead written =>
    fillStep cap s t answers.sslRead bytesTransferred loadedTail loadedHead written
  | .sendBuffers bytesTransferred =>
    some (s.goto t (afterSendBuffers bytesTransferred answers.sendBuffers))
  | .receiveAsync caller =>
    if s.isReceiveOnline || s.shouldClose then some (s.goto t (caller.goesOn false))
    else some { s.goto t (.receiveArming caller) with isReceiveOnline := true }
  | .receiveArming caller =>
    if answers.wsaRecv then some { s.goto t (caller.goesOn true) with receiveIo := .inFlight }
    else some (s.goto t (.receiveFailed caller))
  | .receiveFailed caller => some { s.goto t (caller.goesOn false) with isReceiveOnline := false }
  | .peek succeeded => some (s.goto t (.peekHead succeeded s.head))
  | .peekHead succeeded loadedHead => some (s.goto t (.peekTail succeeded loadedHead s.tail))
  | .peekTail succeeded loadedHead loadedTail =>
    match peekAt cap messageMaxSize s.buffer loadedHead loadedTail with
    | .error _ => none
    | .ok none => some (s.goto t (if succeeded then .idle else .close))
    | .ok (some message) => some (s.goto t (.pushing succeeded message))
  | .pushing succeeded message =>
    some { s.goto t (.popping succeeded (messageHeaderSize + message.bodySize.toNat)) with
      pushed := s.pushed ++ [(message.messageType, message.body)] }
  | .popping succeeded size => some (s.goto t (.popHead succeeded size s.head))
  | .popHead succeeded size loadedHead =>
    some { s.goto t (.peek succeeded) with
      head := (loadedHead + size) % cap
      popped := s.popped + size }
  | .postIoFailed => some { s.goto t .close with isReceiveOnline := false }
  | .close => some { s.goto t .idle with shouldClose := true }

/-- A thread that is idle begins with a handler. -/
def startStep (s : State) (t : Nat) (handler : Handler) : Option State :=
  match s.pc t with
  | .idle =>
    match handler with
    | .receiveCompletion =>
      match s.receiveIo with
      | .completed bytesTransferred =>
        some { s.goto t (.postReceive bytesTransferred) with receiveIo := .none }
      | .failed => some { s.goto t .postIoFailed with receiveIo := .none }
      | _ => none
    | .disconnectSession => some (s.goto t .close)
  | _ => none

/-- A step. -/
def step (s : State) : Action → Option State
  | .start t handler => startStep s t handler
  | .run t answers => runStep cap messageMaxSize s t answers
  | .complete bytesTransferred =>
    match s.receiveIo with
    | .inFlight => some { s with receiveIo := .completed bytesTransferred }
    | _ => none
  | .fail =>
    match s.receiveIo with
    | .inFlight => some { s with receiveIo := .failed }
    | _ => none

/-! ## What is dispatched -/

/-- The number of bytes that messages take in the stream. -/
def streamSize (messages : List (UInt16 × Bytes)) : Nat :=
  (messages.map fun m => messageHeaderSize + m.2.length).sum

/-- The messages pushed are the first ones of the stream, and the head has not passed their end. -/
def State.DispatchedOnce (s : State) : Prop :=
  s.pushed <+: parseMessages s.decrypted ∧ s.popped ≤ streamSize s.pushed

/-- The thread has loaded the head for a Peek and not yet pushed the message it may find. -/
def Pc.beforePush : Pc → Bool
  | .peekHead _ _ | .peekTail _ _ _ | .pushing _ _ => true
  | _ => false

/-- The thread has pushed a message and not yet advanced the head over it. -/
def Pc.beforePop : Pc → Bool
  | .popping _ _ | .popHead _ _ _ => true
  | _ => false

/-- No message is pushed between the push and the Pop of another thread, and the head is not advanced
between the Peek and the push of another thread. -/
def DrainsApart (s : State) (a : Action) : Prop :=
  ∀ t answers, a = .run t answers →
    (∀ succeeded message, s.pc t = .pushing succeeded message →
      ∀ u, u ≠ t → (s.pc u).beforePop = false) ∧
    (∀ succeeded size loadedHead, s.pc t = .popHead succeeded size loadedHead →
      ∀ u, u ≠ t → (s.pc u).beforePush = false)

end RatkiniaServer.ReceiveHandlers
