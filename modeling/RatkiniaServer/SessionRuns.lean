import RatkiniaServer.Session
import RatkiniaServer.Lib.Framing
import RatkiniaServer.Lib.Transition

/-!
# Runs of a `Session`

The orders in which the calls of a session follow each other when they do not overlap: rounds of
receiving, rounds of decoding, and sequences of calls that send. Each comes with what an observer
outside of the session sees.
-/

namespace RatkiniaServer.Session

open Ring Framing

variable {τ : Type} (T : Tls τ) (cap : Nat)

/-! ## Rounds of receiving -/

/-- A session, the bytes that `WSARecv` has delivered for it, and whether a `CRASH_COND` has fired. -/
structure Receiver (τ : Type) where
  session : Session τ
  received : Bytes
  aborted : Bool

/-- A round: the bytes that the completion puts into the posted range, and a bound on the iterations
of the loop of `TryPostReceive` beyond the first. -/
structure Round where
  bytes : Bytes
  fuel : Nat

/-- `WSARecv` puts bytes into the range posted. -/
def fillPosted (s : Session τ) (posted : Posted) (bytes : Bytes) : Session τ :=
  { s with receiveTlsBuffer := write s.receiveTlsBuffer posted.position bytes }

/-- `TryReceiveAsync`, a completion of at least one byte and at most the posted length, and
`TryPostReceive`. -/
def receiveStep (r : Receiver τ) (round : Round) : Option (Receiver τ) :=
  if r.aborted then none
  else
    match r.session.tryReceiveAsync cap true with
    | (_, none) => none
    | (s, some posted) =>
      if 0 < round.bytes.length ∧ round.bytes.length ≤ posted.length then
        match (s.fillPosted posted round.bytes).tryPostReceive T cap (round.fuel + 1)
            round.bytes.length with
        | .ok (s, _) => some ⟨s, r.received ++ round.bytes, false⟩
        | .error _ => some ⟨s, r.received ++ round.bytes, true⟩
      else none

/-! ## Rounds of decoding -/

/-- What may have arrived for the receiving side since the last call: the TLS ring and the state of
OpenSSL are arbitrary. -/
structure Arrival (τ : Type) where
  tls : τ
  tlsBuffer : Nat → UInt8
  tlsHead : Nat
  tlsTail : Nat

/-- The session after an arrival. -/
def arrive (s : Session τ) (a : Arrival τ) : Session τ :=
  { s with
    tls := a.tls
    receiveTlsBuffer := a.tlsBuffer
    receiveTlsBufferHead := a.tlsHead
    receiveTlsBufferTail := a.tlsTail }

/-- A session and the messages it has emitted, as type and body. -/
structure Decoder (τ : Type) where
  session : Session τ
  emitted : List (UInt16 × Bytes)

/-- `BufferCapacity` for a given `MessageMaxSize`. -/
def bufferCapacity (messageMaxSize : Nat) : Nat := messageMaxSize * 4

/-- `TryProcessReceiveBuffers` without failure, followed by the loop of `PostReceive`. -/
def decodeStep (messageMaxSize : Nat) (d : Decoder τ) (a : Arrival τ) : Option (Decoder τ) :=
  let cap := bufferCapacity messageMaxSize
  match (d.session.arrive a).tryProcessReceiveBuffers T cap with
  | .error _ => none
  | .ok (_, .failed) => none
  | .ok (s, _) =>
    match drainLoop cap messageMaxSize cap s with
    | .error _ => none
    | .ok (s, messages) => some ⟨s, d.emitted ++ messages⟩

/-- The frames of the message stream: a header of four bytes whose second field, in network byte
order, is the size of the body. -/
def messageFormat : Format UInt8 where
  headerSize := messageHeaderSize
  headerSize_pos := by decide
  bodySize header := 256 * (header.getD 2 0).toNat + (header.getD 3 0).toNat

/-- The message that a frame carries. -/
def messageOf (f : Frame UInt8) : UInt16 × Bytes :=
  (UInt16.ofNat (256 * (f.1.getD 0 0).toNat + (f.1.getD 1 0).toNat), f.2)

/-- The plain stream parser: the messages of a contiguous byte stream. -/
def parseMessages (stream : Bytes) : List (UInt16 × Bytes) :=
  (messageFormat.parse stream).1.map messageOf

/-- The incomplete message at the end of a stream. -/
def incompleteMessage (stream : Bytes) : Bytes := (messageFormat.parse stream).2

/-- All headers of a stream announce a body that fits in a message of `messageMaxSize` bytes, the
header of the incomplete message included. -/
def HeadersFit (messageMaxSize : Nat) (stream : Bytes) : Prop :=
  (∀ f ∈ (messageFormat.parse stream).1,
    messageHeaderSize + messageFormat.bodySize f.1 ≤ messageMaxSize) ∧
  (messageHeaderSize ≤ (incompleteMessage stream).length →
    messageHeaderSize + messageFormat.bodySize ((incompleteMessage stream).take messageHeaderSize) ≤
      messageMaxSize)

/-! ## Sequences of messages -/

/-- What `SerializeToArray` leaves in the buffer of zeros behind the header: the body, or the zeros
where the size of the body is no `int`. -/
def serializeToArray (body : Bytes) : Bytes :=
  if body.length < 2 ^ 31 then body else List.replicate body.length 0

/-- `PushMessage` for one message after the other. -/
def pushMessages (s : Session τ) (messages : List (UInt16 × Bytes)) : Session τ :=
  messages.foldl (fun s message => s.pushMessage message.1 (serializeToArray message.2)) s

/-- The stream of the buffers that `pushMessages` adds to the queue. -/
def pushedStream (s : Session τ) (messages : List (UInt16 × Bytes)) : Bytes :=
  ((s.pushMessages messages).sendAppQueue.drop s.sendAppQueue.length).flatten

/-- The size of the body fits into the size field of a header. -/
def Representable (message : UInt16 × Bytes) : Prop := message.2.length < 2 ^ 16

instance (message : UInt16 × Bytes) : Decidable (Representable message) :=
  inferInstanceAs (Decidable (_ < _))

/-- The messages pushed are decoded, except those that no header can represent, which are refused. -/
def PushedDecode (s : Session τ) (messages : List (UInt16 × Bytes)) : Prop :=
  parseMessages (s.pushedStream messages) =
      messages.filter (fun message => decide (Representable message)) ∧
    incompleteMessage (s.pushedStream messages) = []

/-! ## Sequences of sending calls -/

/-- A session, the buffers of the messages pushed to it, in order, and whether a call has returned
failure. -/
structure Sender (τ : Type) where
  session : Session τ
  pushed : List Bytes
  failed : Bool

/-- The calls that move outgoing messages. -/
inductive SendOp
  | pushMessage (messageType : UInt16) (body : Bytes)
  | trySendAsync (fuel : Nat) (accepted : Bool)
  | tryPostSend (bytesTransferred : Nat)
  | tryPostReceive (fuel bytesTransferred : Nat)

/-- One call. -/
def sendStep (w : Sender τ) : SendOp → Option (Sender τ)
  | .pushMessage messageType body =>
    some ⟨w.session.pushMessage messageType body, w.pushed ++ [frame messageType body], w.failed⟩
  | .trySendAsync fuel accepted =>
    match w.session.trySendAsync T cap fuel accepted with
    | .ok (s, outcome) => some ⟨s, w.pushed, w.failed || decide (outcome = .returned false)⟩
    | .error _ => none
  | .tryPostSend bytesTransferred =>
    some ⟨w.session.tryPostSend cap bytesTransferred, w.pushed, w.failed⟩
  | .tryPostReceive fuel bytesTransferred =>
    match w.session.tryPostReceive T cap fuel bytesTransferred with
    | .ok (s, value) => some ⟨s, w.pushed, w.failed || decide (value = some false)⟩
    | .error _ => none

/-- The messages that `SSL_write` has accepted. -/
def accepted (s : Session τ) : List Bytes :=
  (s.log.sslWrites.filter fun w => decide (w.2 = .success)).map Prod.fst

/-- The messages that `SSL_write` has answered with `SSL_ERROR_WANT_READ`. -/
def wantedRead (s : Session τ) : List Bytes :=
  (s.log.sslWrites.filter fun w => decide (w.2 = .wantRead)).map Prod.fst

end RatkiniaServer.Session
