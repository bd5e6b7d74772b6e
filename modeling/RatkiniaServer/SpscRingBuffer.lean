import RatkiniaServer.AuthJob
import RatkiniaServer.Lib.Ring
import RatkiniaServer.Lib.Transition
import Mathlib.Algebra.Group.Nat.Defs

/-!
# `SpscRingBuffer`

A ring of bytes between one producer, which calls `TryEnqueue` with raw bytes, and one consumer,
which calls `TryPeek` and `Dequeue`. A step is one load or store of `head_` or `tail_`, or one byte of
a `memcpy`; the steps of the two may come in any order. `size_t` has 64 bits.
-/

namespace RatkiniaServer

open Ring

namespace SpscRingBuffer

/-! ## `GetBufferStatus` -/

/-- `BufferStatus::Size`, from the loaded indices. -/
def bufferSize (cap loadedHead loadedTail : Nat) : Nat :=
  if loadedHead ≤ loadedTail then loadedTail - loadedHead
  else (loadedTail + cap - loadedHead) % 2 ^ 64

/-- `BufferStatus::AvailableSize`. -/
def availableSize (cap loadedHead loadedTail : Nat) : Nat :=
  cap - bufferSize cap loadedHead loadedTail - 1

/-- The position of byte `i` of a block at `start`, of which the first `primarySize` bytes are
contiguous and the others begin at the start of the ring. -/
def blockPosition (start primarySize i : Nat) : Nat :=
  if i < primarySize then start + i else i - primarySize

/-! ## The state -/

/-- Where `TryEnqueue` is. -/
inductive Producer
  | idle
  | called (data : Bytes)
  | headLoaded (data : Bytes) (loadedHead : Nat)
  | copying (data : Bytes) (loadedTail copied : Nat)
  deriving DecidableEq

/-- Where `TryPeek` or `Dequeue` is. -/
inductive Consumer
  | idle
  | called (size : Nat)
  | headLoaded (size loadedHead : Nat)
  | copying (size loadedHead copied : Nat)
  | dequeueCalled (size : Nat)
  | dequeueLoaded (size loadedHead : Nat)
  deriving DecidableEq

/-- What a successful `TryPeek` returns: a pointer into `ringBuffer_`, or `tempDequeueBuffer_`. -/
inductive Pointer
  | ringBuffer (offset : Nat)
  | tempDequeueBuffer
  deriving DecidableEq

/-- A successful `TryPeek`, with the number of bytes dequeued before it. -/
structure Peek where
  pointer : Pointer
  start : Nat
  size : Nat
  deriving DecidableEq

end SpscRingBuffer

open SpscRingBuffer

/-- The ring and its two users. The last five fields are a history, which no code reads: the calls of
`TryEnqueue` that have returned and their results, the bytes that the head has passed, the successful
calls of `TryPeek`, the number of observed bytes that are still in the ring, and how many bytes had
been dequeued when `TryPeek` last began to fill `tempDequeueBuffer_`. -/
structure SpscRingBuffer where
  ringBuffer : Nat → UInt8
  tempDequeueBuffer : Nat → UInt8
  head : Nat
  tail : Nat
  producer : Producer
  consumer : Consumer
  results : List (Bytes × Bool)
  dequeued : Bytes
  peeks : List Peek
  observed : Nat
  tempStart : Nat

/-- A call, or the next step of the call that the producer or the consumer is in. -/
inductive SpscRingBuffer.Action
  | tryEnqueue (data : Bytes)
  | produce
  | tryPeek (size : Nat)
  | dequeue (size : Nat)
  | consume

namespace SpscRingBuffer

/-- A new ring, with any bytes in its buffers. -/
def init (ringBuffer tempDequeueBuffer : Nat → UInt8) : SpscRingBuffer :=
  ⟨ringBuffer, tempDequeueBuffer, 0, 0, .idle, .idle, [], [], [], 0, 0⟩

variable (cap maxBlockSize : Nat) (s : SpscRingBuffer)

/-- The bytes that `TryEnqueue` has taken. -/
def enqueued : Bytes := (s.results.filter Prod.snd).flatMap Prod.fst

/-- The bytes that a pointer shows now. -/
def exposed (peek : Peek) : Bytes :=
  match peek.pointer with
  | .ringBuffer offset => slice s.ringBuffer offset peek.size
  | .tempDequeueBuffer => slice s.tempDequeueBuffer 0 peek.size

/-! ## Steps -/

/-- The next step of `TryEnqueue`. -/
def produce : Option SpscRingBuffer :=
  match s.producer with
  | .idle => none
  | .called data => some { s with producer := .headLoaded data s.head }
  | .headLoaded data loadedHead =>
    let loadedTail := s.tail
    if availableSize cap loadedHead loadedTail < data.length then
      some { s with producer := .idle, results := s.results ++ [(data, false)] }
    else some { s with producer := .copying data loadedTail 0 }
  | .copying data loadedTail copied =>
    if h : copied < data.length then
      let primarySize := min data.length (cap - loadedTail)
      some { s with
        ringBuffer := write s.ringBuffer (blockPosition loadedTail primarySize copied) [data[copied]]
        producer := .copying data loadedTail (copied + 1) }
    else
      some { s with
        tail := (loadedTail + data.length) % 2 ^ 64 % cap
        producer := .idle
        results := s.results ++ [(data, true)] }

/-- `TryPeek` returns. -/
def peeked (pointer : Pointer) (size : Nat) : SpscRingBuffer :=
  { s with
    consumer := .idle
    peeks := s.peeks ++ [⟨pointer, s.dequeued.length, size⟩]
    observed := max s.observed size }

/-- The next step of `TryPeek` or `Dequeue`. -/
def consume : Option SpscRingBuffer :=
  match s.consumer with
  | .idle => none
  | .called size => some { s with consumer := .headLoaded size s.head }
  | .headLoaded size loadedHead =>
    let loadedTail := s.tail
    if bufferSize cap loadedHead loadedTail < size then some { s with consumer := .idle }
    else if size ≤ cap - loadedHead then some (s.peeked (.ringBuffer loadedHead) size)
    else
      some { s with
        consumer := .copying size loadedHead 0
        tempStart := s.dequeued.length }
  | .copying size loadedHead copied =>
    if copied < size then
      let primarySize := cap - loadedHead
      let position := blockPosition loadedHead primarySize copied
      some { s with
        tempDequeueBuffer := write s.tempDequeueBuffer copied [s.ringBuffer position]
        consumer := .copying size loadedHead (copied + 1) }
    else some (s.peeked .tempDequeueBuffer size)
  | .dequeueCalled size => some { s with consumer := .dequeueLoaded size s.head }
  | .dequeueLoaded size loadedHead =>
    some { s with
      head := (loadedHead + size) % 2 ^ 64 % cap
      consumer := .idle
      dequeued := s.dequeued ++ content cap s.ringBuffer loadedHead size
      observed := s.observed - size }

/-- A step. The producer and the consumer each make one call at a time; `TryPeek` asks for at most
`MaxBlockSize` bytes, and `Dequeue` is given at most as many as have been observed. -/
def step : Action → Option SpscRingBuffer
  | .tryEnqueue data => if s.producer = .idle then some { s with producer := .called data } else none
  | .produce => s.produce cap
  | .tryPeek size =>
    if s.consumer = .idle ∧ size ≤ maxBlockSize then some { s with consumer := .called size } else none
  | .dequeue size =>
    if s.consumer = .idle ∧ size ≤ s.observed then some { s with consumer := .dequeueCalled size }
    else none
  | .consume => s.consume cap

/-- The action is one of the consumer. -/
def Action.ofConsumer : Action → Bool
  | .tryEnqueue _ | .produce => false
  | .tryPeek _ | .dequeue _ | .consume => true

end SpscRingBuffer

end RatkiniaServer
