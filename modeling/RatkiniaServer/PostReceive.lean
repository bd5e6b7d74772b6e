import RatkiniaServer.SessionRuns

/-!
# `PostReceive`, receive after receive

A session whose receives are served one after the other: `TryReceiveAsync` posts a receive, its
completion is handled by `TryPostReceive`, whose loop calls `TryProcessReceiveBuffers` and
`TryProcessSendBuffers` in turn, and `PostReceive` hands out the messages that are complete. A step is
a completion, a call in the loop or the loop that hands out.
-/

namespace RatkiniaServer.Session

open Ring

variable {τ : Type} (T : Tls τ) (messageMaxSize : Nat)

/-- Where `PostReceive` is: at the completion of a receive, at `TryProcessReceiveBuffers` or
`TryProcessSendBuffers` in the loop of `TryPostReceive`, in the loop over `PeekReceivedMessage` with
the value that `TryPostReceive` has returned, or done with a session that it has closed. -/
inductive ReceivePhase
  | receiving
  | processReceive
  | processSend
  | draining (value : Bool)
  | closed
  deriving DecidableEq

/-- A session, where `PostReceive` is, the messages handed out, and whether `TryProcessReceiveBuffers`
has returned `Failed` because `adjustedAvailable` was 0. -/
structure Connection (τ : Type) where
  session : Session τ
  phase : ReceivePhase
  emitted : List (UInt16 × Bytes)
  outOfSpace : Bool

/-- A new session, before its first receive. -/
def Connection.fresh (tls : τ) (buffer : Nat → UInt8) : Connection τ :=
  ⟨Session.fresh tls buffer, .receiving, [], false⟩

/-- The bytes that the app ring has room for: `available` in `TryProcessReceiveBuffers`. -/
def appRingAvailable (cap : Nat) (s : Session τ) : Nat :=
  cap - getRingBufferSize cap s.receiveAppBufferHead s.receiveAppBufferTail - 1

/-- From `s` to `s'` the loop over `SSL_read` has read as many bytes as there was room for. This is
how `adjustedAvailable` gets 0. -/
def ranOutOfSpace (cap : Nat) (s s' : Session τ) : Bool :=
  decide (s'.log.decrypted.length = s.log.decrypted.length + appRingAvailable cap s)

/-- The bytes of a completion, or going on with what comes next. -/
inductive ConnectionOp
  | completion (bytes : Bytes)
  | next

/-- The completion of a receive that `TryReceiveAsync` has posted, with at least one byte and at most
the posted length, which does not fill an empty ring. -/
def Connection.complete (c : Connection τ) (bytes : Bytes) : Option (Connection τ) :=
  let cap := bufferCapacity messageMaxSize
  match c.session.tryReceiveAsync cap true with
  | (_, none) => none
  | (s, some posted) =>
    if 0 < bytes.length ∧ bytes.length ≤ posted.length ∧ bytes.length < cap then
      let s := s.fillPosted posted bytes
      some { c with
        session := { s with
          isReceiveOnline := false
          receiveTlsBufferTail := (s.receiveTlsBufferTail + bytes.length) % cap }
        phase := .processReceive }
    else none

/-- What `PostReceive` does next. -/
def Connection.next (c : Connection τ) : Option (Connection τ) :=
  let cap := bufferCapacity messageMaxSize
  match c.phase with
  | .receiving => none
  | .processReceive =>
    match c.session.tryProcessReceiveBuffers T cap with
    | .error _ => none
    | .ok (s, .success) => some { c with session := s, phase := .draining true }
    | .ok (s, .wantProcessSendBuffers) => some { c with session := s, phase := .processSend }
    | .ok (s, .failed) =>
      some { c with
        session := s
        phase := .draining false
        outOfSpace := c.outOfSpace || ranOutOfSpace cap c.session s }
  | .processSend =>
    match c.session.tryProcessSendBuffers T cap with
    | .error _ => none
    | .ok (s, .success) => some { c with session := s, phase := .processReceive }
    | .ok (s, .wantProcessReceiveBuffers) => some { c with session := s, phase := .draining true }
    | .ok (s, .failed) => some { c with session := s, phase := .draining false }
  | .draining value =>
    match drainLoop cap messageMaxSize cap c.session with
    | .error _ => none
    | .ok (s, messages) =>
      some { c with
        session := s
        phase := if value then .receiving else .closed
        emitted := c.emitted ++ messages }
  | .closed => none

/-- A step. -/
def connectionStep (c : Connection τ) : ConnectionOp → Option (Connection τ)
  | .completion bytes => if c.phase = .receiving then c.complete messageMaxSize bytes else none
  | .next => c.next T messageMaxSize

/-! ## Room for the plaintext -/

/-- Calls of `SSL_read` that all return bytes lead from one state of OpenSSL to the other, and return
this many bytes. -/
inductive Reads (T : Tls τ) : τ → Nat → τ → Prop
  | nil (tls : τ) : Reads T tls 0 tls
  | cons {tls tls' tls'' : τ} {n m : Nat} {bs : Bytes} {pos : 0 < bs.length} {le : bs.length ≤ n}
      (hread : T.sslRead tls n = (tls', .bytes bs pos le)) (hreads : Reads T tls' m tls'') :
      Reads T tls (bs.length + m) tls''

/-- The condition on a call of `TryProcessReceiveBuffers`: what the app ring holds and the plaintext
that `SSL_read` has to return, once the received bytes are in `ReadBio`, number fewer than
`BufferCapacity - 1`. -/
def CallHasRoom (cap : Nat) (s : Session τ) : Prop :=
  ∀ s', s.processReceiveTls T cap = .ok s' → ∀ n tls, Reads T s'.tls n tls →
    getRingBufferSize cap s.receiveAppBufferHead s.receiveAppBufferTail + n < cap - 1

/-- Every call of `TryProcessReceiveBuffers` has room. -/
def HasRoom (c : Connection τ) : ConnectionOp → Prop
  | .completion _ => True
  | .next => c.phase = .processReceive → CallHasRoom T (bufferCapacity messageMaxSize) c.session

/-- The plaintext that `SSL_read` returns before it stops does not depend on the sizes it is asked
for: there are `ready tls` bytes of it. -/
structure ReadsUniformly (T : Tls τ) (ready : τ → Nat) : Prop where
  bytes : ∀ {tls tls' : τ} {n : Nat} {bs : Bytes} {pos : 0 < bs.length} {le : bs.length ≤ n},
    T.sslRead tls n = (tls', .bytes bs pos le) → bs.length + ready tls' = ready tls
  stops : ∀ {tls tls' : τ} {n : Nat} {r : ReadResult n}, 0 < n → T.sslRead tls n = (tls', r) →
    (∀ bs pos le, r ≠ .bytes bs pos le) → ready tls = 0

end RatkiniaServer.Session
