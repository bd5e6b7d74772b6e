import RatkiniaServer.AuthJob
import RatkiniaServer.Lib.Ring
import Mathlib.Algebra.Group.Nat.Defs

/-!
# `Session`

The buffers of a connection and the calls that move bytes between them, as a single thread runs
them. Bytes come in through `ReceiveTlsBuffer` and `ReadBio`, are decrypted by `SSL_read` into
`ReceiveAppBuffer` and taken out as messages; messages go out through `sendAppQueue_`, `SSL_write`
and `WriteBio` into `SendTlsBuffer`.

OpenSSL is a parameter: `Tls τ` says what its calls answer in a state of type `τ`. The session keeps
a log of these calls, which no code reads.
-/

namespace RatkiniaServer

open Ring

/-! ## The ring helpers -/

/-- `GetRingBufferSize`. -/
def getRingBufferSize (bufferCapacity head tail : Nat) : Nat :=
  if head ≤ tail then tail - head else bufferCapacity - head + tail

/-- `GetWritableSizes`: the sizes of the two pieces to write. -/
def getWritableSizes (bufferCapacity head tail sizeToWrite : Nat) : Option (Nat × Nat) :=
  let ringBufferSize := getRingBufferSize bufferCapacity head tail
  let ringBufferAvailableSize := bufferCapacity - ringBufferSize - 1
  if ringBufferAvailableSize < sizeToWrite then none
  else
    let primarySize := min sizeToWrite (bufferCapacity - tail)
    some (primarySize, sizeToWrite - primarySize)

/-- `GetReadableSizes`: the sizes of the two pieces to read. -/
def getReadableSizes (bufferCapacity head tail sizeToRead : Nat) : Option (Nat × Nat) :=
  let ringBufferSize := getRingBufferSize bufferCapacity head tail
  if ringBufferSize < sizeToRead then none
  else
    let primarySize := min sizeToRead (bufferCapacity - head)
    some (primarySize, sizeToRead - primarySize)

/-! ## OpenSSL -/

/-- The outcome of `SSL_read` with room for `n` bytes, by its result and `SSL_get_error`. -/
inductive ReadResult (n : Nat)
  | bytes (bs : Bytes) (pos : 0 < bs.length) (le : bs.length ≤ n)
  | zeroReturn
  | wantRead
  | wantWrite
  | error

/-- The outcome of `SSL_write`: every error but `SSL_ERROR_WANT_READ` is treated alike. -/
inductive WriteResult
  | success
  | wantRead
  | error
  deriving DecidableEq

/-- The calls into OpenSSL on one `SSL` object and its two memory BIOs: `SSL_read`, `SSL_write`,
`BIO_write` to `ReadBio`, which takes all of the bytes, and `BIO_pending` and `BIO_read` of
`WriteBio`, where `none` is a result of `BIO_read` that is not positive. -/
structure Tls (τ : Type) where
  sslRead : τ → (n : Nat) → τ × ReadResult n
  sslWrite : τ → Bytes → τ × WriteResult
  bioWrite : τ → Bytes → τ
  bioPending : τ → Nat
  bioRead : τ → (n : Nat) → τ × Option { bs : Bytes // 0 < bs.length ∧ bs.length ≤ n }

/-- What has passed between a session and OpenSSL so far: the bytes written to `ReadBio`, the bytes
that `SSL_read` returned, the messages offered to `SSL_write` with its answers, and the bytes taken
from `WriteBio`. -/
structure TlsLog where
  toReadBio : Bytes := []
  decrypted : Bytes := []
  sslWrites : List (Bytes × WriteResult) := []
  fromWriteBio : Bytes := []

/-! ## The state -/

/-- The fields of a `Session` that its calls work on; `tls` is the state of `Ssl`, `ReadBio` and
`WriteBio`, and `sendAppQueue_` has its front first. -/
structure Session (τ : Type) where
  tls : τ
  receiveTlsBuffer : Nat → UInt8
  receiveTlsBufferHead : Nat
  receiveTlsBufferTail : Nat
  receiveAppBuffer : Nat → UInt8
  receiveAppBufferHead : Nat
  receiveAppBufferTail : Nat
  sendTlsBuffer : Nat → UInt8
  sendTlsBufferHead : Nat
  sendTlsBufferTail : Nat
  sendAppQueue : List Bytes
  isSendOnline : Bool
  isReceiveOnline : Bool
  shouldClose : Bool
  log : TlsLog

/-- Why a call does not return: a `CRASH_COND`, a write past the end of a buffer, or a loop whose fuel
is used up. -/
inductive Stop
  | crash
  | overrun
  | outOfFuel
  deriving DecidableEq

namespace Session

variable {τ : Type} (T : Tls τ) (cap : Nat)

/-- A new session. -/
def fresh (tls : τ) (buffer : Nat → UInt8) : Session τ :=
  ⟨tls, buffer, 0, 0, buffer, 0, 0, buffer, 0, 0, [], false, false, false, {}⟩

/-! ## `TryProcessReceiveBuffers` -/

/-- `BIO_write(ReadBio, ...)`. -/
def writeReadBio (s : Session τ) (bs : Bytes) : Session τ :=
  { s with
    tls := T.bioWrite s.tls bs
    log := { s.log with toReadBio := s.log.toReadBio ++ bs } }

/-- The loop from the TLS ring to `ReadBio`. The length argument of `BIO_write` is an `int`, so a
piece of `2 ^ 31` bytes or more fails the `CRASH_COND`. -/
def decryptLoop (loadedHead loadedTail : Nat) :
    Nat → Session τ → Nat → Except Stop (Session τ × Nat)
  | 0, _, _ => .error .outOfFuel
  | fuel + 1, s, totalDecrypted =>
    let adjustedHead := (loadedHead + totalDecrypted) % cap
    let decryptableSize :=
      if adjustedHead ≤ loadedTail then loadedTail - adjustedHead else cap - adjustedHead
    if decryptableSize = 0 then .ok (s, totalDecrypted)
    else if 2 ^ 31 ≤ decryptableSize then .error .crash
    else
      decryptLoop loadedHead loadedTail fuel
        (s.writeReadBio T (slice s.receiveTlsBuffer adjustedHead decryptableSize))
        (totalDecrypted + decryptableSize)

/-- The first part of `TryProcessReceiveBuffers`: Receive Tls Buffer -> Read Bio. -/
def processReceiveTls (s : Session τ) : Except Stop (Session τ) := do
  let loadedHead := s.receiveTlsBufferHead
  let loadedTail := s.receiveTlsBufferTail
  let (s, totalDecrypted) ← decryptLoop T cap loadedHead loadedTail (cap + 1) s 0
  if totalDecrypted > 0 then
    .ok { s with receiveTlsBufferHead := (loadedHead + totalDecrypted) % cap }
  else .ok s

/-- How the loop over `SSL_read` ends. -/
inductive EnqueueEnd
  | finished (totalEnqueued : Nat) (wantSend : Bool)
  | failed

/-- The loop from `SSL_read` to the app ring. -/
def enqueueLoop (loadedTail available : Nat) :
    Nat → Session τ → Nat → Except Stop (Session τ × EnqueueEnd)
  | 0, _, _ => .error .outOfFuel
  | fuel + 1, s, totalEnqueued =>
    let adjustedTail := (loadedTail + totalEnqueued) % cap
    let adjustedAvailable := available - totalEnqueued
    if adjustedAvailable = 0 then .ok (s, .failed)
    else
      let enqueuableSize := min adjustedAvailable (cap - adjustedTail)
      match T.sslRead s.tls enqueuableSize with
      | (tls, .bytes bs _ _) =>
        enqueueLoop loadedTail available fuel
          { s with
            tls := tls
            receiveAppBuffer := write s.receiveAppBuffer adjustedTail bs
            log := { s.log with decrypted := s.log.decrypted ++ bs } }
          (totalEnqueued + bs.length)
      | (tls, .zeroReturn) => .ok ({ s with tls := tls }, .finished totalEnqueued false)
      | (tls, .wantRead) => .ok ({ s with tls := tls }, .finished totalEnqueued false)
      | (tls, .wantWrite) => .ok ({ s with tls := tls }, .finished totalEnqueued true)
      | (tls, .error) => .ok ({ s with tls := tls }, .failed)

/-- `ReceiveBuffersProcessResult`. -/
inductive ReceiveBuffersProcessResult
  | success
  | wantProcessSendBuffers
  | failed
  deriving DecidableEq

/-- The second part of `TryProcessReceiveBuffers`: Read Bio -> Receive App Buffer. -/
def processReceiveApp (s : Session τ) : Except Stop (Session τ × ReceiveBuffersProcessResult) := do
  let loadedTail := s.receiveAppBufferTail
  let loadedHead := s.receiveAppBufferHead
  let size :=
    if loadedHead ≤ loadedTail then loadedTail - loadedHead else cap - loadedHead + loadedTail
  let available := cap - size - 1
  match ← enqueueLoop T cap loadedTail available (cap + 1) s 0 with
  | (s, .failed) => .ok (s, .failed)
  | (s, .finished totalEnqueued wantSend) =>
    let s :=
      if totalEnqueued > 0 then
        { s with receiveAppBufferTail := (loadedTail + totalEnqueued) % cap }
      else s
    .ok (s, if wantSend then .wantProcessSendBuffers else .success)

/-- `TryProcessReceiveBuffers`. -/
def tryProcessReceiveBuffers (s : Session τ) :
    Except Stop (Session τ × ReceiveBuffersProcessResult) := do
  let s ← s.processReceiveTls T cap
  s.processReceiveApp T cap

/-! ## `TryProcessSendBuffers` -/

/-- How the loop over `SSL_write` ends. -/
inductive WriteEnd
  | drained
  | wantRead
  | failed
  deriving DecidableEq

/-- The loop from `sendAppQueue_` to `SSL_write`, by recursion on the queue. -/
def writeLoop : List Bytes → Session τ → Session τ × WriteEnd
  | [], s => (s, .drained)
  | message :: rest, s =>
    let (tls, result) := T.sslWrite s.tls message
    let s := { s with
      tls := tls
      sendAppQueue := rest
      log := { s.log with sslWrites := s.log.sslWrites ++ [(message, result)] } }
    match result with
    | .success => writeLoop rest s
    | .wantRead => (s, .wantRead)
    | .error => (s, .failed)

/-- The loop from `WriteBio` to the TLS ring: the number of bytes enqueued, or a failure. -/
def fillLoop (loadedHead loadedTail : Nat) :
    Nat → Session τ → Nat → Except Stop (Session τ × Option Nat)
  | 0, _, _ => .error .outOfFuel
  | fuel + 1, s, totalEnqueued =>
    if T.bioPending s.tls = 0 then .ok (s, some totalEnqueued)
    else
      let adjustedTail := (loadedTail + totalEnqueued) % cap
      let size :=
        if loadedHead ≤ adjustedTail then adjustedTail - loadedHead
        else cap - loadedHead + adjustedTail
      let enqueuableSize := min (cap - size - 1) (cap - adjustedTail)
      if enqueuableSize = 0 then .ok (s, none)
      else
        match T.bioRead s.tls enqueuableSize with
        | (tls, none) => .ok ({ s with tls := tls }, none)
        | (tls, some ⟨bs, _⟩) =>
          fillLoop loadedHead loadedTail fuel
            { s with
              tls := tls
              sendTlsBuffer := write s.sendTlsBuffer adjustedTail bs
              log := { s.log with fromWriteBio := s.log.fromWriteBio ++ bs } }
            (totalEnqueued + bs.length)

/-- `SendBuffersProcessResult`. -/
inductive SendBuffersProcessResult
  | success
  | wantProcessReceiveBuffers
  | failed
  deriving DecidableEq

/-- The second part of `TryProcessSendBuffers`: Write Bio -> Send Tls Buffer. -/
def processSendTls (wantRead : Bool) (s : Session τ) :
    Except Stop (Session τ × SendBuffersProcessResult) := do
  let loadedHead := s.sendTlsBufferHead
  let loadedTail := s.sendTlsBufferTail
  match ← fillLoop T cap loadedHead loadedTail (cap + 1) s 0 with
  | (s, none) => .ok (s, .failed)
  | (s, some totalEnqueued) =>
    let s :=
      if totalEnqueued > 0 then
        { s with sendTlsBufferTail := (loadedTail + totalEnqueued) % cap }
      else s
    .ok (s, if wantRead then .wantProcessReceiveBuffers else .success)

/-- `TryProcessSendBuffers`. -/
def tryProcessSendBuffers (s : Session τ) : Except Stop (Session τ × SendBuffersProcessResult) :=
  match writeLoop T s.sendAppQueue s with
  | (s, .failed) => .ok (s, .failed)
  | (s, .wantRead) => s.processSendTls T cap true
  | (s, .drained) => s.processSendTls T cap false

/-! ## Receiving -/

/-- A call posted to the socket: the first position of its buffer and `wsabuf.len`. -/
structure Posted where
  position : Nat
  length : Nat
  deriving DecidableEq

/-- `TryReceiveAsync`, where `accepted` tells whether `WSARecv` takes the call: what it posted, or
`none` when it returns false. `wsabuf.len` has 32 bits. -/
def tryReceiveAsync (s : Session τ) (accepted : Bool) : Session τ × Option Posted :=
  if s.isReceiveOnline || s.shouldClose then (s, none)
  else
    let loadedTail := s.receiveTlsBufferTail
    let loadedHead := s.receiveTlsBufferHead
    let bufferSize := getRingBufferSize cap loadedHead loadedTail
    let writableSize := cap - loadedTail
    let len := writableSize % 2 ^ 32
    if bufferSize = cap - 1 ∨ len = 0 then ({ s with isReceiveOnline := false }, none)
    else if accepted then ({ s with isReceiveOnline := true }, some ⟨loadedTail, len⟩)
    else ({ s with isReceiveOnline := false }, none)

/-- The loop of `TryPostReceive`: the value returned, or `none` while it is still looping. -/
def postReceiveLoop : Nat → Session τ → Except Stop (Session τ × Option Bool)
  | 0, s => .ok (s, none)
  | fuel + 1, s => do
    match ← s.tryProcessReceiveBuffers T cap with
    | (s, .success) => .ok (s, some true)
    | (s, .failed) => .ok (s, some false)
    | (s, .wantProcessSendBuffers) =>
      match ← s.tryProcessSendBuffers T cap with
      | (s, .wantProcessReceiveBuffers) => .ok (s, some true)
      | (s, .failed) => .ok (s, some false)
      | (s, .success) => postReceiveLoop fuel s

/-- `TryPostReceive`, up to `fuel` iterations of its loop. -/
def tryPostReceive (fuel : Nat) (s : Session τ) (bytesTransferred : Nat) :
    Except Stop (Session τ × Option Bool) :=
  postReceiveLoop T cap fuel
    { s with
      isReceiveOnline := false
      receiveTlsBufferTail := (s.receiveTlsBufferTail + bytesTransferred) % cap }

/-! ## Sending -/

/-- How the loop of `TrySendAsync` ends. -/
inductive SendLoopEnd
  | ready
  | failed
  | looping
  deriving DecidableEq

/-- The loop of `TrySendAsync`. -/
def sendLoop : Nat → Session τ → Except Stop (Session τ × SendLoopEnd)
  | 0, s => .ok (s, .looping)
  | fuel + 1, s => do
    match ← s.tryProcessSendBuffers T cap with
    | (s, .success) => .ok (s, .ready)
    | (s, .failed) => .ok (s, .failed)
    | (s, .wantProcessReceiveBuffers) =>
      match ← s.tryProcessReceiveBuffers T cap with
      | (s, .wantProcessSendBuffers) => .ok (s, .ready)
      | (s, .failed) => .ok (s, .failed)
      | (s, .success) => sendLoop fuel s

/-- What `TrySendAsync` has come to. -/
inductive SendOutcome
  | returned (value : Bool)
  | posted (call : Posted)
  | looping
  deriving DecidableEq

/-- `TrySendAsync`, up to `fuel` iterations of its loop, where `accepted` tells whether `WSASend`
takes the call; it returns true where it has posted one. `wsabuf.len` has 32 bits. -/
def trySendAsync (fuel : Nat) (s : Session τ) (accepted : Bool) :
    Except Stop (Session τ × SendOutcome) :=
  if s.isSendOnline then .ok (s, .returned true)
  else if s.shouldClose then .ok (s, .returned false)
  else if s.sendTlsBufferHead = s.sendTlsBufferTail ∧ s.sendAppQueue.isEmpty then
    .ok ({ s with isSendOnline := false }, .returned true)
  else do
    match ← sendLoop T cap fuel { s with isSendOnline := true } with
    | (s, .looping) => .ok (s, .looping)
    | (s, .failed) => .ok ({ s with isSendOnline := false }, .returned false)
    | (s, .ready) =>
      let loadedHead := s.sendTlsBufferHead
      let loadedTail := s.sendTlsBufferTail
      let len := if loadedTail ≥ loadedHead then loadedTail - loadedHead else cap - loadedHead
      if accepted then .ok (s, .posted ⟨loadedHead, len % 2 ^ 32⟩)
      else .ok ({ s with isSendOnline := false }, .returned false)

/-- `TryPostSend`, which always returns true. -/
def tryPostSend (s : Session τ) (bytesTransferred : Nat) : Session τ :=
  { s with
    isSendOnline := false
    sendTlsBufferHead := (s.sendTlsBufferHead + bytesTransferred) % cap }

/-! ## Messages -/

/-- `Htons`, and `ntohs` on a little-endian host. -/
def htons (value : UInt16) : UInt16 :=
  ((value &&& 0xFF00) >>> 8) ||| ((value &&& 0x00FF) <<< 8)

/-- A `uint16_t` in the memory of a little-endian host. -/
def storeUInt16 (value : UInt16) : Bytes := [value.toUInt8, (value >>> 8).toUInt8]

/-- The `uint16_t` that a little-endian host reads. -/
def loadUInt16 (low high : UInt8) : UInt16 := low.toUInt16 ||| (high.toUInt16 <<< 8)

/-- `MessageHeaderSize`. -/
def messageHeaderSize : Nat := 4

/-- The buffer that `PushMessage` queues for a message with the given serialization: the header in
network byte order, its second field being `ByteSizeLong()` cut to 16 bits, and the body. -/
def frame (messageType : UInt16) (body : Bytes) : Bytes :=
  storeUInt16 (htons messageType) ++ storeUInt16 (htons (UInt16.ofNat body.length)) ++ body

/-- `PushMessage`. -/
def pushMessage (s : Session τ) (messageType : UInt16) (body : Bytes) : Session τ :=
  { s with sendAppQueue := s.sendAppQueue ++ [frame messageType body] }

/-- `MessageHeader`, converted to host byte order, from the bytes in memory. -/
def headerOf (header : Bytes) : UInt16 × UInt16 :=
  (htons (loadUInt16 (header.getD 0 0) (header.getD 1 0)),
    htons (loadUInt16 (header.getD 2 0) (header.getD 3 0)))

/-- `MessagePeekResult`, with the bytes that `Body` points to. -/
structure MessagePeekResult where
  messageType : UInt16
  bodySize : UInt16
  body : Bytes
  deriving DecidableEq

/-- `PeekReceivedMessage` behind its loads of the head and the tail; `ReceiveContiguousPopBuffer` has
`messageMaxSize` bytes. -/
def peekAt (messageMaxSize : Nat) (buffer : Nat → UInt8) (loadedHead loadedTail : Nat) :
    Except Stop (Option MessagePeekResult) :=
  match getReadableSizes cap loadedHead loadedTail messageHeaderSize with
  | none => .ok none
  | some (primaryHeaderSize, secondaryHeaderSize) =>
    let (messageType, bodySize) := headerOf
      (slice buffer loadedHead primaryHeaderSize ++ slice buffer 0 secondaryHeaderSize)
    let bodyHead := (loadedHead + messageHeaderSize) % cap
    match getReadableSizes cap bodyHead loadedTail bodySize.toNat with
    | none => .ok none
    | some (primaryBodySize, secondaryBodySize) =>
      if primaryBodySize = bodySize.toNat then
        .ok (some ⟨messageType, bodySize, slice buffer bodyHead bodySize.toNat⟩)
      else if messageMaxSize < primaryBodySize + secondaryBodySize then .error .overrun
      else
        .ok (some ⟨messageType, bodySize,
          slice buffer bodyHead primaryBodySize ++ slice buffer 0 secondaryBodySize⟩)

/-- A copy that `PeekReceivedMessage` makes, from a position on: what it reads of `ReceiveAppBuffer`,
and what it writes to `ReceiveContiguousPopBuffer`. -/
inductive PeekAccess
  | read (position size : Nat)
  | write (position size : Nat)
  deriving DecidableEq

/-- The copies of `PeekReceivedMessage` behind its loads of the head and the tail, in order; the
header is copied to a local variable. -/
def peekAccesses (buffer : Nat → UInt8) (loadedHead loadedTail : Nat) : List PeekAccess :=
  match getReadableSizes cap loadedHead loadedTail messageHeaderSize with
  | none => []
  | some (primaryHeaderSize, secondaryHeaderSize) =>
    let (_, bodySize) := headerOf
      (slice buffer loadedHead primaryHeaderSize ++ slice buffer 0 secondaryHeaderSize)
    let bodyHead := (loadedHead + messageHeaderSize) % cap
    [.read loadedHead primaryHeaderSize, .read 0 secondaryHeaderSize] ++
      match getReadableSizes cap bodyHead loadedTail bodySize.toNat with
      | none => []
      | some (primaryBodySize, secondaryBodySize) =>
        if primaryBodySize = bodySize.toNat then []
        else
          [.read bodyHead primaryBodySize, .write 0 primaryBodySize,
            .read 0 secondaryBodySize, .write primaryBodySize secondaryBodySize]

/-- `PeekReceivedMessage`. -/
def peekReceivedMessage (messageMaxSize : Nat) (s : Session τ) :
    Except Stop (Option MessagePeekResult) :=
  peekAt cap messageMaxSize s.receiveAppBuffer s.receiveAppBufferHead s.receiveAppBufferTail

/-- `PopReceivedMessage`. -/
def popReceivedMessage (s : Session τ) (size : Nat) : Session τ :=
  { s with receiveAppBufferHead := (s.receiveAppBufferHead + size) % cap }

/-- The loop of `PostReceive` over `PeekReceivedMessage` and `PopReceivedMessage`: the messages it
hands to the actor. -/
def drainLoop (messageMaxSize : Nat) :
    Nat → Session τ → Except Stop (Session τ × List (UInt16 × Bytes))
  | 0, _ => .error .outOfFuel
  | fuel + 1, s => do
    match ← s.peekReceivedMessage cap messageMaxSize with
    | none => .ok (s, [])
    | some message =>
      let (s, rest) ← drainLoop messageMaxSize fuel
        (s.popReceivedMessage cap (messageHeaderSize + message.bodySize.toNat))
      .ok (s, (message.messageType, message.body) :: rest)

end Session

end RatkiniaServer
