import RatkiniaServer.Lib.Chain
import RatkiniaServer.Lib.Transition

/-!
# `MpscMessageBodyPool`

Blocks for message bodies, in a free list for each of eight sizes. Any number of producers call
`Acquire`, and one consumer calls `Release`. A step is a load of a head, a read or a write of a `Next`,
or a compare-exchange; the steps of different threads may come in any order.
`MessageMaxSize - MessageHeaderSize` is the parameter `maxBodySize`.
-/

namespace RatkiniaServer

namespace MpscMessageBodyPool

/-- `GetMemoryBlockListHeadFor`: the index of the head and the block size. -/
def getMemoryBlockListHeadFor (maxBodySize size : Nat) : Option (Fin 8 × Nat) :=
  if size > maxBodySize then none
  else if size > 1024 then some (7, maxBodySize)
  else if size > 512 then some (6, 1024)
  else if size > 256 then some (5, 512)
  else if size > 128 then some (4, 256)
  else if size > 64 then some (3, 128)
  else if size > 32 then some (2, 64)
  else if size > 16 then some (1, 32)
  else some (0, 16)

/-- Where a thread is in `Acquire`: before the load of the head, at the loop condition, or at the
compare-exchange with the `Next` that it has read. -/
inductive Acquiring
  | idle
  | called (size : Nat)
  | looping (index : Fin 8) (size : Nat) (expected : Option Nat)
  | nextRead (index : Fin 8) (size : Nat) (expected : Nat) (next : Option Nat)
  deriving DecidableEq

/-- Where the consumer is in `Release`: before the load of the head, before `Next` is written, or at
the compare-exchange. -/
inductive Releasing
  | idle
  | called (block size : Nat)
  | looping (index : Fin 8) (block size : Nat) (expected : Option Nat)
  | nextWritten (index : Fin 8) (block size : Nat) (expected : Option Nat)
  deriving DecidableEq

end MpscMessageBodyPool

open MpscMessageBodyPool

/-- The pool and the threads. Blocks are named by their addresses; `capacity` is the size of the body of
a block that has been allocated. `held` is a history, which no code reads: the blocks that `Acquire` has
returned and `Release` has not put back, each with the size that it was acquired with. -/
structure MpscMessageBodyPool where
  memoryBlockListHeads : Fin 8 → Option Nat
  next : Nat → Option Nat
  capacity : Nat → Option Nat
  acquiring : Nat → Acquiring
  releasing : Releasing
  held : List (Nat × Nat)
  aborted : Bool

/-- A call of `Acquire` by the thread `t` or of `Release` by the consumer, or the next step of a call. A
compare-exchange may fail spuriously; `fresh` is the address that `operator new` answers. -/
inductive MpscMessageBodyPool.Action
  | acquire (t size : Nat)
  | runAcquire (t : Nat) (spurious : Bool) (fresh : Nat)
  | release (block size : Nat)
  | runRelease (spurious : Bool)

namespace MpscMessageBodyPool

/-- A new pool, on memory with any contents. -/
def init (next : Nat → Option Nat) : MpscMessageBodyPool :=
  ⟨fun _ => none, next, fun _ => none, fun _ => .idle, .idle, [], false⟩

variable (maxBodySize : Nat) (s : MpscMessageBodyPool)

/-- The thread `t` goes on in `Acquire`. -/
def acquireAt (t : Nat) (a : Acquiring) : MpscMessageBodyPool :=
  { s with acquiring := Function.update s.acquiring t a }

/-- `Acquire` returns a block to the thread `t`. -/
def acquired (t block size : Nat) : MpscMessageBodyPool :=
  { s with
    acquiring := Function.update s.acquiring t .idle
    held := s.held ++ [(block, size)] }

/-- The next step of the thread `t` in `Acquire`. -/
def runAcquire (t : Nat) (spurious : Bool) (fresh : Nat) : Option MpscMessageBodyPool :=
  match s.acquiring t with
  | .idle => none
  | .called size =>
    match getMemoryBlockListHeadFor maxBodySize size with
    | none => some { s with aborted := true }
    | some (index, _) => some (s.acquireAt t (.looping index size (s.memoryBlockListHeads index)))
  | .looping _ size none =>
    match getMemoryBlockListHeadFor maxBodySize size with
    | none => none
    | some (_, blockSize) =>
      if s.capacity fresh = none then
        some { s.acquired t fresh size with
          capacity := Function.update s.capacity fresh (some blockSize) }
      else none
  | .looping index size (some expected) =>
    some (s.acquireAt t (.nextRead index size expected (s.next expected)))
  | .nextRead index size expected next =>
    let head := s.memoryBlockListHeads index
    if spurious = false ∧ head = some expected then
      some { s.acquired t expected size with
        memoryBlockListHeads := Function.update s.memoryBlockListHeads index next }
    else some (s.acquireAt t (.looping index size head))

/-- The next step of the consumer in `Release`. -/
def runRelease (spurious : Bool) : Option MpscMessageBodyPool :=
  match s.releasing with
  | .idle => none
  | .called block size =>
    match getMemoryBlockListHeadFor maxBodySize size with
    | none => some { s with aborted := true }
    | some (index, _) =>
      some { s with releasing := .looping index block size (s.memoryBlockListHeads index) }
  | .looping index block size expected =>
    some { s with
      next := Function.update s.next block expected
      releasing := .nextWritten index block size expected }
  | .nextWritten index block size expected =>
    let head := s.memoryBlockListHeads index
    if spurious = false ∧ head = expected then
      some { s with
        memoryBlockListHeads := Function.update s.memoryBlockListHeads index (some block)
        releasing := .idle
        held := s.held.erase (block, size) }
    else some { s with releasing := .looping index block size head }

/-- A step; none after `std::abort`. A thread makes one call at a time, and `Release` is given a block
that is held and the size that it was acquired with. -/
def step (a : Action) : Option MpscMessageBodyPool :=
  if s.aborted then none
  else
    match a with
    | .acquire t size => if s.acquiring t = .idle then some (s.acquireAt t (.called size)) else none
    | .runAcquire t spurious fresh => s.runAcquire maxBodySize t spurious fresh
    | .release block size =>
      if s.releasing = .idle ∧ (block, size) ∈ s.held then
        some { s with releasing := .called block size }
      else none
    | .runRelease spurious => s.runRelease maxBodySize spurious

/-! ## What is promised -/

/-- The block at place `k` of the free list with this index. -/
def freeBlock (index : Fin 8) (k : Nat) : Option Nat :=
  Chains.nth s.next (s.memoryBlockListHeads index) k

/-- Concurrent calls of `Acquire` are safe. -/
structure Safe : Prop where
  /-- No block is held twice. -/
  held_once : (s.held.map Prod.fst).Nodup
  /-- No block that is held is on a free list. -/
  held_not_free : ∀ p ∈ s.held, ∀ index k, s.freeBlock index k ≠ some p.1
  /-- A block has room for the size that it was acquired with. -/
  capacity_ge : ∀ p ∈ s.held, ∃ c, s.capacity p.1 = some c ∧ p.2 ≤ c
  /-- No block is on two free lists or twice on one. -/
  free_once : ∀ index k index' k' block, s.freeBlock index k = some block →
    s.freeBlock index' k' = some block → index = index' ∧ k = k'

/-- The step is a compare-exchange of `Acquire` that succeeds although `expected->Next` is no longer the
value that was read. -/
def staleExchange : Action → Bool
  | .runAcquire t false _ =>
    match s.acquiring t with
    | .nextRead index _ expected next =>
      decide (s.memoryBlockListHeads index = some expected ∧ s.next expected ≠ next)
    | _ => false
  | _ => false

end MpscMessageBodyPool

end RatkiniaServer
