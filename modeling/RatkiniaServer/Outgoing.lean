import RatkiniaServer.SendHandlers

/-!
# Outgoing data and its wake-ups

The send handlers of a session, with what is in `WriteBio`. Of each byte there and in the TLS ring it is
known whether it is of a pushed message: `SSL_write` appends ciphertext for the message, and OpenSSL
may append records of its own at any time. `BIO_pending` and `BIO_read` answer from `WriteBio`.

While data of a pushed message is out for the client, something has to see to it that a call of
`TrySendAsync` follows.
-/

namespace RatkiniaServer.SendHandlers

open Ring Session

/-- Bytes for the client, each with whether it is of a pushed message. -/
abbrev Tagged := List (UInt8 × Bool)

/-- The thread is in a call of `TryProcessSendBuffers` that `TryPostReceive` has made. -/
def Pc.receiving : Pc → Bool
  | .processSendBuffers caller | .writing caller | .sslWriting caller _ => caller = .tryPostReceive
  | .fillHead caller _ | .fillTail caller _ _ | .filling caller _ _ _ _ => caller = .tryPostReceive
  | _ => false

/-- The thread is in `TrySendAsync`, behind the section that sets the flag. -/
def Pc.sending : Pc → Bool
  | .sendOnline | .sendHeadLoaded _ | .sendTailLoaded _ _ | .sendReceiveBuffers => true
  | .sendReady | .sendReadyHead _ | .sendReadyTail _ _ => true
  | .processSendBuffers caller | .writing caller | .sslWriting caller _ => caller = .trySendAsync
  | .fillHead caller _ | .fillTail caller _ _ | .filling caller _ _ _ _ => caller = .trySendAsync
  | _ => false

/-- The call that the thread is in has failed. -/
def Pc.fails : Pc → Bool
  | .postIoFailed | .sendFailed | .close => true
  | _ => false

/-- What sees to it that a call of `TrySendAsync` follows: a pusher before `InitiateSendAsync`; an
InitiateSend completion that is being posted or queued, or its handler before `TrySendAsync`; a
`WSASend` in flight or completed, or its handler before `TrySendAsync`; or a thread inside of
`TrySendAsync` with the flag set. -/
def State.WakeUp (s : State) : Prop :=
  (∃ t, s.pc t = .initiateSend) ∨
  (s.initiateQueued ≠ 0 ∨
    ∃ t, s.pc t = .initiatePosting ∨ s.pc t = .postInitiateSend ∨ s.pc t = .trySendAsync) ∨
  ((∃ call, s.sendIo = .inFlight call) ∨ (∃ n, s.sendIo = .completed n) ∨
    ∃ t, (s.pc t).updatesHead = true) ∨
  (s.isSendOnline = true ∧ ∃ t, (s.pc t).sending = true)

/-- The sending side of a session, with `WriteBio`. -/
structure Outgoing extends State where
  writeBio : Tagged
  /-- Which positions of `SendTlsBuffer` have last been written with a byte of a pushed message. -/
  pushedAt : Nat → Bool
  /-- History: a call on the session has failed. -/
  failed : Bool

namespace Outgoing

def init (buffer : Nat → UInt8) : Outgoing where
  toState := State.init buffer
  writeBio := []
  pushedAt _ := false
  failed := false

/-- A step of the handlers, in which `SSL_write` appends the ciphertext if it takes a message, or
records that OpenSSL appends of its own. -/
inductive Action
  | handlers (a : SendHandlers.Action) (ciphertext : Tagged)
  | control (records : Bytes)

variable (cap : Nat) (s : Outgoing)

/-- A step of a thread. -/
def runStep (t : Nat) (answers : Answers) (ciphertext : Tagged) : Option Outgoing :=
  (SendHandlers.runStep cap s.toState t answers).bind fun next =>
    let s' : Outgoing := { s with toState := next, failed := s.failed || (next.pc t).fails }
    match s.pc t with
    | .sslWriting _ _ =>
      if answers.sslWrite = .success then
        some { s' with writeBio := s.writeBio ++ ciphertext }
      else some s'
    | .filling _ _ _ loadedTail written =>
      match answers.bio, next.pc t with
      | .nothingPending, _ => if s.writeBio = [] then some s' else none
      | .bytes bytes, .filling _ _ _ _ _ =>
        if bytes = (s.writeBio.take bytes.length).map Prod.fst then
          some { s' with
            writeBio := s.writeBio.drop bytes.length
            pushedAt := write s.pushedAt ((loadedTail + written.length) % cap)
              ((s.writeBio.take bytes.length).map Prod.snd) }
        else none
      -- without room in the ring, nothing is read
      | _, _ => if s.writeBio = [] then none else some s'
    | _ => some s'

/-- A step. -/
def step : Action → Option Outgoing
  | .control records => some { s with writeBio := s.writeBio ++ records.map fun b => (b, false) }
  | .handlers (.run t answers) ciphertext => s.runStep cap t answers ciphertext
  | .handlers .fail _ =>
    (SendHandlers.step cap s.toState .fail).map fun next =>
      { s with toState := next, failed := true }
  | .handlers a _ =>
    (SendHandlers.step cap s.toState a).map fun next => { s with toState := next }

/-! ## Wake-ups -/

/-- The TLS ring holds a byte of a pushed message. -/
def RingHolds : Prop :=
  ∃ k < getRingBufferSize cap s.head s.tail, s.pushedAt ((s.head + k) % cap) = true

/-- `WriteBio` holds a byte of a pushed message. -/
def BioHolds : Prop := ∃ b ∈ s.writeBio, b.2 = true

/-- `TryProcessSendBuffers` has popped a message and not yet passed it to `SSL_write`, or it has read a
byte of a pushed message from `WriteBio` and not yet stored the tail behind it. -/
def HandHolds : Prop :=
  (∃ t caller message, s.pc t = .sslWriting caller message) ∨
  ∃ t caller wantRead loadedHead loadedTail written,
    s.pc t = .filling caller wantRead loadedHead loadedTail written ∧
      ∃ k < written.length, s.pushedAt ((loadedTail + k) % cap) = true

/-- Data of a pushed message is out for the client. -/
def Holds : Prop := s.sendAppQueue ≠ [] ∨ s.BioHolds ∨ s.RingHolds cap

/-- While the session is not closing, no call on it has failed and no thread is inside of
`TryPostReceive`, data of a pushed message has a wake-up. -/
def Awake : Prop :=
  s.shouldClose = false → s.failed = false → (∀ t, (s.pc t).receiving = false) →
    s.Holds cap → s.toState.WakeUp

/-- `TrySendAsync` does not find ring and queue empty in its first section while a message is between
the queue and `SSL_write`, or a byte of one in `WriteBio`, in the ring, or between the two. -/
def NothingMissed : Action → Prop
  | .handlers (.run t _) _ =>
    match s.pc t with
    | .sendTailLoaded loadedHead loadedTail =>
      loadedHead = loadedTail → s.sendAppQueue = [] →
        ¬ s.BioHolds ∧ ¬ s.RingHolds cap ∧ ¬ s.HandHolds cap
    | _ => True
  | _ => True

end Outgoing

end RatkiniaServer.SendHandlers
