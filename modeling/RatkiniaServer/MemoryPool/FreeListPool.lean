import RatkiniaServer.Lib.Transition
import Mathlib.Algebra.Group.Nat.Defs
import Mathlib.Logic.Function.Basic

/-!
# `FreeListPool`

The pool of equally large blocks of `Util/MemoryPool/FreeListPool.h`. A block is at the position
`page * BlocksPerPage + i`; its header is a pointer, which links the free blocks to a chain from `head_`.
`Release` takes a block whose pointer is not null for one that is free already.
-/

namespace RatkiniaServer.MemoryPool

/-- The constructor arguments of a `FreeListPool`, as `BlockSize` and `BlocksPerPage`. -/
structure PoolSizes where
  blockSize : Nat
  blocksPerPage : Nat
  blocksPerPage_pos : 0 < blocksPerPage

namespace PoolSizes

/-- How often the loop `for (int i = BlocksPerPage - 1; i >= 0; --i)` runs: the start value is converted
to a 32-bit `int`. -/
def loopCount (Z : PoolSizes) : Nat :=
  if (Z.blocksPerPage - 1) % 2 ^ 32 < 2 ^ 31 then (Z.blocksPerPage - 1) % 2 ^ 32 + 1 else 0

/-- `PageSize`. -/
def pageSize (Z : PoolSizes) : Nat := Z.blockSize * Z.blocksPerPage % 2 ^ 64

end PoolSizes

/-- The state of a `FreeListPool`: `pages_.size()`, all `Next` pointers and `head_`. -/
structure FreeListPool (Z : PoolSizes) where
  pageCount : Nat
  next : Nat → Option Nat
  head : Option Nat

namespace FreeListPool

variable {Z : PoolSizes}

/-- The constructor. `raw` is what the memory of the pages to come holds. -/
def empty (Z : PoolSizes) (raw : Nat → Option Nat) : FreeListPool Z := ⟨0, raw, none⟩

/-- The loop of `Acquire` over the blocks `k - 1, ..., 0` of the page whose first block is at `base`. -/
def linkPage (base : Nat) : Nat → (Nat → Option Nat) → Option Nat → (Nat → Option Nat) × Option Nat
  | 0, next, nextNode => (next, nextNode)
  | i + 1, next, nextNode =>
    linkPage base i (Function.update next (base + i) nextNode) (some (base + i))

/-- The first statement of `Acquire`: a new page, when there is no free block. `none` is a write past
the end of the page. -/
def ensureFree (p : FreeListPool Z) : Option (FreeListPool Z) :=
  if p.head = none then
    if Z.blockSize * Z.loopCount ≤ Z.pageSize then
      let (next, nextNode) := linkPage (p.pageCount * Z.blocksPerPage) Z.loopCount p.next none
      some ⟨p.pageCount + 1, next, nextNode⟩
    else none
  else some p

/-- `Acquire`: the pool and the block. `none` is the dereference of a null pointer, or a write past the
end of a page. -/
def acquire (p : FreeListPool Z) : Option (FreeListPool Z × Nat) :=
  p.ensureFree.bind fun p =>
    p.head.map fun returnNode =>
      ({ p with next := Function.update p.next returnNode none, head := p.next returnNode }, returnNode)

/-- `Release`; `none` is the check that aborts. -/
def release (p : FreeListPool Z) (node : Nat) : Option (FreeListPool Z) :=
  if p.next node ≠ none then none
  else some { p with next := Function.update p.next node p.head, head := some node }

/-! ## Runs -/

/-- A pool and its users: the blocks that they hold, the blocks that `Acquire` has returned, and whether
the check of `Release` has aborted. `undetected` is whether a block that was not held has been released
without an abort. -/
structure World (Z : PoolSizes) where
  pool : FreeListPool Z
  held : List Nat
  returned : List Nat
  aborted : Bool
  undetected : Bool

/-- A new pool. -/
def fresh (Z : PoolSizes) (raw : Nat → Option Nat) : World Z := ⟨empty Z raw, [], [], false, false⟩

inductive Op
  | acquire
  | release (node : Nat)

/-- An operation. `Release` may be given any pointer that `Acquire` has returned. -/
def step (w : World Z) (op : Op) : Option (World Z) :=
  if w.aborted then none
  else
    match op with
    | .acquire => w.pool.acquire.map fun (pool, node) =>
      { w with pool := pool, held := node :: w.held, returned := node :: w.returned }
    | .release node =>
      if node ∈ w.returned then
        match w.pool.release node with
        | none => some { w with aborted := true }
        | some pool => some { w with
            pool := pool
            held := w.held.filter (· ≠ node)
            undetected := w.undetected || decide (node ∉ w.held) }
      else none

end FreeListPool

end RatkiniaServer.MemoryPool
