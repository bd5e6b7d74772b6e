import RatkiniaServer.Session
import RatkiniaServer.Lib.Transition

/-!
# The send TLS ring

What fills `SendTlsBuffer` and what empties it, when the calls do not overlap: `TryProcessSendBuffers`
appends what OpenSSL has for the peer, `TrySendAsync` posts the contiguous slice at the head, and
`TryPostSend` moves the head on by what has been sent of it. The ring may be filled while a send is in
flight.
-/

namespace RatkiniaServer.Session

open Ring

variable {τ : Type} (T : Tls τ) (cap : Nat)

/-! ## What is written -/

/-- A call that writes to the ring: where, and the bytes. -/
structure RingWrite where
  position : Nat
  bytes : Bytes

/-- The ring after writes, in order. -/
def applyWrites (buffer : Nat → UInt8) (writes : List RingWrite) : Nat → UInt8 :=
  writes.foldl (fun buffer w => write buffer w.position w.bytes) buffer

/-- The writes of `BIO_read` in the loop from `WriteBio` to the TLS ring. -/
def fillWrites (loadedHead loadedTail : Nat) : Nat → τ → Nat → List RingWrite
  | 0, _, _ => []
  | fuel + 1, tls, totalEnqueued =>
    if T.bioPending tls = 0 then []
    else
      let adjustedTail := (loadedTail + totalEnqueued) % cap
      let size :=
        if loadedHead ≤ adjustedTail then adjustedTail - loadedHead
        else cap - loadedHead + adjustedTail
      let enqueuableSize := min (cap - size - 1) (cap - adjustedTail)
      if enqueuableSize = 0 then []
      else
        match T.bioRead tls enqueuableSize with
        | (_, none) => []
        | (tls, some ⟨bs, _⟩) =>
          ⟨adjustedTail, bs⟩ :: fillWrites loadedHead loadedTail fuel tls (totalEnqueued + bs.length)

/-- The writes of `TryProcessSendBuffers`. -/
def sendTlsWrites (s : Session τ) : List RingWrite :=
  match writeLoop T s.sendAppQueue s with
  | (_, .failed) => []
  | (s, _) => fillWrites T cap s.sendTlsBufferHead s.sendTlsBufferTail (cap + 1) s.tls 0

/-! ## Steps -/

/-- A send in flight, with the bytes that were in its slice when it was posted. -/
structure SendInFlight where
  posted : Posted
  data : Bytes

/-- A session with its send in flight, the bytes that sends have completed, and the bytes that calls of
`TryProcessSendBuffers` have taken from `WriteBio`, except for those that failed. -/
structure Transmitter (τ : Type) where
  session : Session τ
  inFlight : Option SendInFlight
  completed : Bytes
  filled : Bytes

/-- The slice that `TrySendAsync` posts behind its loop. `wsabuf.len` has 32 bits. -/
def sendSlice (s : Session τ) : Posted :=
  let loadedHead := s.sendTlsBufferHead
  let loadedTail := s.sendTlsBufferTail
  let len := if loadedTail ≥ loadedHead then loadedTail - loadedHead else cap - loadedHead
  ⟨loadedHead, len % 2 ^ 32⟩

/-- What there is to send at a call of `TryProcessSendBuffers`: the state of OpenSSL and `sendAppQueue_`
are arbitrary. -/
structure Pending (τ : Type) where
  tls : τ
  sendAppQueue : List Bytes

/-- The session with what there is to send. -/
def withPending (s : Session τ) (pending : Pending τ) : Session τ :=
  { s with
    tls := pending.tls
    sendAppQueue := pending.sendAppQueue }

/-- The bytes that have been taken from `WriteBio` since `s`. -/
def takenSince (s s' : Session τ) : Bytes := s'.log.fromWriteBio.drop s.log.fromWriteBio.length

/-- What fills the ring and what empties it. -/
inductive SendRingOp (τ : Type)
  | tryProcessSendBuffers (pending : Pending τ)
  | post
  | tryPostSend (bytesTransferred : Nat)

/-- A step. There is at most one send in flight, and a completion is not longer than the slice. -/
def sendRingStep (w : Transmitter τ) : SendRingOp τ → Option (Transmitter τ)
  | .tryProcessSendBuffers pending =>
    match (w.session.withPending pending).tryProcessSendBuffers T cap with
    | .ok (s, .failed) => some { w with session := s }
    | .ok (s, _) => some { w with session := s, filled := w.filled ++ takenSince w.session s }
    | .error _ => none
  | .post =>
    match w.inFlight with
    | none =>
      let posted := w.session.sendSlice cap
      some { w with
        session := { w.session with isSendOnline := true }
        inFlight := some ⟨posted, slice w.session.sendTlsBuffer posted.position posted.length⟩ }
    | some _ => none
  | .tryPostSend bytesTransferred =>
    match w.inFlight with
    | none => none
    | some send =>
      if bytesTransferred ≤ send.posted.length then
        some { w with
          session := w.session.tryPostSend cap bytesTransferred
          inFlight := none
          completed := w.completed ++ send.data.take bytesTransferred }
      else none

end RatkiniaServer.Session
