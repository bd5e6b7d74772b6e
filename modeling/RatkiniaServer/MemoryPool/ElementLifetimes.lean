import RatkiniaServer.Lib.Lifetimes
import RatkiniaServer.MemoryPool.SparseArray

/-!
# The elements of a `SparseArray`

`SparseArray` constructs its elements in the dense blocks and destroys them by hand: in `Emplace`, in
`EraseBySparseIndex` and in the destructor. The calls are those for an element type whose destructor is
not trivial, so a move is a move construction. A slot is the `Data` of a dense block.
-/

namespace RatkiniaServer.MemoryPool.SparseArray

open Lifetimes (Event)

universe u

variable {α : Type u} {Z : SparseArraySizes}

/-- The constructions and destructions of an operation that goes through. -/
def Op.events (l : SparseArray Z α) : Op α → List (Event Nat)
  | .emplace _ => [.construct (Z.densePosition l.count)]
  | .eraseBySparseIndex sparseIndex =>
    match l.sparseBlocks.get sparseIndex with
    | none => []
    | some eraseSparseBlock =>
      let eraseDenseIndex := (l.sparseBlocks.mem eraseSparseBlock).data
      let count := l.count - 1
      .destroy (Z.densePosition eraseDenseIndex.toNat) ::
        if eraseDenseIndex.toNat = count then []
        else
          [.construct (Z.densePosition eraseDenseIndex.toNat), .destroy (Z.densePosition count)]

/-- The loop of the destructor over the blocks of a page, of which `remaining` are left. Its
`denseBlockIndex` is an `int`; `none` is an overflow. -/
def destroyBlocks (Z : SparseArraySizes) (densePageIndex : Nat) :
    Nat → Nat → Option (List (Event Nat))
  | 0, _ => some []
  | remaining + 1, denseBlockIndex =>
    if denseBlockIndex + 1 < 2 ^ 31 then
      (destroyBlocks Z densePageIndex remaining (denseBlockIndex + 1)).map
        (.destroy (densePageIndex * Z.denseBlocksPerPage + denseBlockIndex) :: ·)
    else none

/-- The loop of the destructor over the pages, of which `remaining` are left. -/
def destroyPages (Z : SparseArraySizes) : Nat → Nat → Option (List (Event Nat))
  | 0, _ => some []
  | remaining + 1, densePageIndex => do
    let page ← destroyBlocks Z densePageIndex Z.denseBlocksPerPage 0
    let rest ← destroyPages Z remaining (densePageIndex + 1)
    some (page ++ rest)

/-- `~SparseArray`. -/
def destructorEvents (l : SparseArray Z α) : Option (List (Event Nat)) :=
  destroyPages Z l.densePageCount 0

/-- An array with the constructions and destructions so far. -/
structure Traced (Z : SparseArraySizes) (α : Type u) where
  world : World Z α
  events : List (Event Nat)

/-- An operation, where elements are moved by a move constructor that leaves `movedFrom a` behind. -/
def tracedStep (movedFrom : α → α) (w : Traced Z α) (op : Op α) : Option (Traced Z α) :=
  (step (.moveConstruct movedFrom) w.world op).map fun world =>
    ⟨world, w.events ++ op.events w.world.array⟩

end RatkiniaServer.MemoryPool.SparseArray
