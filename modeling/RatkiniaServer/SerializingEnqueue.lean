import RatkiniaServer.SpscRingBuffer

/-!
# `TryEnqueue` of a message

`TryEnqueue` takes raw bytes, or a message that serializes itself into the ring. Where the message does
not fit before the end of the ring it goes through `tempEnqueueBuffer_`, which the constructor does not
allocate. A call is one step here.
-/

namespace RatkiniaServer.SpscRingBuffer

open Ring

/-- What a `unique_ptr<char[]>` owns. -/
structure TempBuffer where
  size : Nat
  bytes : Nat → UInt8

/-- The fields that `TryEnqueue` works on; `tempEnqueueBuffer` is `none` for a null pointer. -/
structure EnqueueSide where
  capacity : Nat
  maxBlockSize : Nat
  ringBuffer : Nat → UInt8
  tempEnqueueBuffer : Option TempBuffer
  head : Nat
  tail : Nat

/-- Why a call has no outcome: `%` by a capacity of zero, a write past the end of `ringBuffer_`, and
accesses through `tempEnqueueBuffer_` when it is null or too small. -/
inductive Undefined
  | modZero
  | pastRing
  | nullTemp
  | pastTemp
  deriving DecidableEq

namespace EnqueueSide

/-- The constructor. -/
def construct (capacity maxBlockSize : Nat) : EnqueueSide :=
  ⟨capacity, maxBlockSize, fun _ => 0, none, 0, 0⟩

variable (s : EnqueueSide)

/-- `BufferStatus::AvailableSize`, which wraps around for a capacity of zero. -/
def available : Nat := (2 ^ 64 + s.capacity - bufferSize s.capacity s.head s.tail - 1) % 2 ^ 64

/-- The store to `tail_`. -/
def storeTail (size : Nat) : Except Undefined EnqueueSide :=
  if s.capacity = 0 then .error .modZero
  else .ok { s with tail := (s.tail + size) % 2 ^ 64 % s.capacity }

/-- The two calls of `memcpy` into the ring, the second one from its start. -/
def copy (primary secondary : Bytes) : Except Undefined EnqueueSide :=
  if s.capacity < secondary.length then .error .pastRing
  else .ok { s with ringBuffer := write (write s.ringBuffer s.tail primary) 0 secondary }

/-- `SerializeToArray` of a message whose serialization is `b`, to a position. It writes nothing where
the size of the message is no `int`. -/
def serializeTo (buffer : Nat → UInt8) (position : Nat) (b : Bytes) : Nat → UInt8 :=
  if b.length < 2 ^ 31 then write buffer position b else buffer

/-- `TryEnqueue` of raw bytes. -/
def tryEnqueueBytes (data : Bytes) : Except Undefined (EnqueueSide × Bool) :=
  if s.available < data.length then .ok (s, false)
  else do
    let primarySize := min data.length (s.capacity - s.tail)
    let s ← s.copy (data.take primarySize) (data.drop primarySize)
    let s ← s.storeTail data.length
    .ok (s, true)

/-- The message goes into the ring, at its tail or through `tempEnqueueBuffer_`. -/
def serialize (b : Bytes) (primarySize secondarySize : Nat) : Except Undefined EnqueueSide :=
  if secondarySize = 0 then .ok { s with ringBuffer := serializeTo s.ringBuffer s.tail b }
  else
    match s.tempEnqueueBuffer with
    | none => .error .nullTemp
    | some temp =>
      if temp.size < b.length then .error .pastTemp
      else
        let bytes := serializeTo temp.bytes 0 b
        { s with tempEnqueueBuffer := some { temp with bytes := bytes } }.copy
          (slice bytes 0 primarySize) (slice bytes primarySize secondarySize)

/-- `TryEnqueue` of a message whose serialization is `b`, with the size of `b`. -/
def tryEnqueueMessage (b : Bytes) : Except Undefined (EnqueueSide × Bool) :=
  if s.available < b.length then .ok (s, false)
  else do
    let primarySize := min b.length (s.capacity - s.tail)
    let secondarySize := b.length - primarySize
    let s ← s.serialize b primarySize secondarySize
    let s ← s.storeTail b.length
    .ok (s, true)

/-- `Dequeue`. -/
def dequeue (size : Nat) : Except Undefined EnqueueSide :=
  if s.capacity = 0 then .error .modZero
  else .ok { s with head := (s.head + size) % 2 ^ 64 % s.capacity }

/-- A call on a ring. -/
inductive Call
  | tryEnqueueBytes (data : Bytes)
  | tryEnqueueMessage (b : Bytes)
  | dequeue (size : Nat)

/-- A call that has an outcome. -/
def step : Call → Option EnqueueSide
  | .tryEnqueueBytes data => (s.tryEnqueueBytes data).toOption.map Prod.fst
  | .tryEnqueueMessage b => (s.tryEnqueueMessage b).toOption.map Prod.fst
  | .dequeue size => (s.dequeue size).toOption

end EnqueueSide

end RatkiniaServer.SpscRingBuffer
