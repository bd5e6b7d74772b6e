import RatkiniaServer.MemoryPool.IndexedUnmanagedList
import RatkiniaServer.MemoryPool.MakeIterableFromThis

/-!
# `SparseArray`

The map of `Util/MemoryPool/SparseArray.h` from 32-bit indices to elements. Here the elements are packed
in the dense pages, each with its index, and the slots of an `IndexedUnmanagedList` have the positions
of their dense blocks. The dense pages are modelled by a map from positions to dense blocks. `none` as
the result of an operation is a failed check, the dereference of a null pointer or a page that does not
exist.
-/

namespace RatkiniaServer.MemoryPool

universe u

variable {α : Type u}

/-- The constructor arguments of a `SparseArray`, for pages that hold at least one block. -/
structure SparseArraySizes where
  densePageSize : Nat
  dataSize : Nat
  sparsePageSize : Nat
  holdsDenseBlock : 4 + dataSize ≤ densePageSize
  holdsSparseBlock : nodeMetadataSize + 4 ≤ sparsePageSize

namespace SparseArraySizes

/-- The pages of `sparseBlocks_`. -/
def sparse (Z : SparseArraySizes) : Layout := ⟨Z.sparsePageSize, 4, Z.holdsSparseBlock⟩

/-- `DenseBlocksPerPage`. -/
def denseBlocksPerPage (Z : SparseArraySizes) : Nat := Z.densePageSize / (4 + Z.dataSize)

/-- The position of the dense block `densePages_[denseIndex / DenseBlocksPerPage]` plus
`denseIndex % DenseBlocksPerPage` blocks. -/
def densePosition (Z : SparseArraySizes) (denseIndex : Nat) : Nat :=
  denseIndex / Z.denseBlocksPerPage * Z.denseBlocksPerPage + denseIndex % Z.denseBlocksPerPage

end SparseArraySizes

/-- A `DenseBlock`. -/
structure DenseBlock (α : Type u) where
  sparseIndex : UInt32
  data : α

/-- The state of a `SparseArray`; `densePageCount` is `densePages_.size()`. -/
structure SparseArray (Z : SparseArraySizes) (α : Type u) where
  count : Nat
  densePageCount : Nat
  denseBlocks : Nat → DenseBlock α
  sparseBlocks : IndexedUnmanagedList Z.sparse UInt32

namespace SparseArray

variable {Z : SparseArraySizes}

/-- `NullIndex`. -/
def nullIndex : UInt32 := 0xFFFFFFFF

/-- The constructor. `rawDense` and `rawSparse` are the content of the memory of the pages to come. -/
def empty (Z : SparseArraySizes) (rawDense : Nat → DenseBlock α) (rawSparse : Memory UInt32) :
    SparseArray Z α where
  count := 0
  densePageCount := 0
  denseBlocks := rawDense
  sparseBlocks := .empty Z.sparse (fun _ block => block) rawSparse

/-- `Emplace`, with the element that the arguments make: the array and the index of the element. -/
def emplace (l : SparseArray Z α) (a : α) : Option (SparseArray Z α × UInt32) :=
  l.sparseBlocks.create.map fun (sparseBlocks, sparseIndex, sparseBlock) =>
    let denseIndex := l.count
    let densePageIndex := denseIndex / Z.denseBlocksPerPage
    ({ count := l.count + 1
       densePageCount := max l.densePageCount (densePageIndex + 1)
       denseBlocks := Function.update l.denseBlocks (Z.densePosition denseIndex) ⟨sparseIndex, a⟩
       sparseBlocks := sparseBlocks.setData sparseBlock (UInt32.ofNat denseIndex) }, sparseIndex)

/-- The dense block at an index, if its page exists. -/
def denseBlock (l : SparseArray Z α) (denseIndex : Nat) : Option (DenseBlock α) :=
  if denseIndex / Z.denseBlocksPerPage < l.densePageCount then
    some (l.denseBlocks (Z.densePosition denseIndex))
  else none

/-- How the element type is moved: by `memcpy` if it is trivially copyable, else by its move
constructor, which leaves `movedFrom a` behind for the destructor. -/
inductive Move (α : Type u)
  | memcpy
  | moveConstruct (movedFrom : α → α)

/-- The last dense block moves to the one that is erased. -/
def moveDenseBlock (move : Move α) (denseBlocks : Nat → DenseBlock α) (erase last : Nat) :
    Nat → DenseBlock α :=
  match move with
  | .memcpy => Function.update denseBlocks erase (denseBlocks last)
  | .moveConstruct movedFrom =>
    let a := (denseBlocks last).data
    Function.update
      (Function.update denseBlocks erase ⟨(denseBlocks last).sparseIndex, a⟩)
      last ⟨(denseBlocks last).sparseIndex, movedFrom a⟩

/-- The end of `EraseBySparseIndex`. -/
def swapDenseBlock (move : Move α) (l : SparseArray Z α) (eraseDenseIndex : UInt32) :
    Option (SparseArray Z α) :=
  (l.denseBlock l.count).bind fun lastDenseBlock =>
    (l.sparseBlocks.get lastDenseBlock.sparseIndex).map fun lastSparseBlock =>
      { l with
        sparseBlocks := l.sparseBlocks.setData lastSparseBlock eraseDenseIndex
        denseBlocks := moveDenseBlock move l.denseBlocks (Z.densePosition eraseDenseIndex.toNat)
          (Z.densePosition l.count) }

/-- `EraseBySparseIndex`. -/
def eraseBySparseIndex (move : Move α) (l : SparseArray Z α) (sparseIndex : UInt32) :
    Option (SparseArray Z α) :=
  (l.sparseBlocks.get sparseIndex).bind fun eraseSparseBlock =>
    let eraseDenseIndex := (l.sparseBlocks.mem eraseSparseBlock).data
    (l.denseBlock eraseDenseIndex.toNat).bind fun _ =>
      let sparseBlocks := (l.sparseBlocks.setData eraseSparseBlock nullIndex).erase sparseIndex
      let l := { l with sparseBlocks := sparseBlocks, count := l.count - 1 }
      if eraseDenseIndex.toNat = l.count then some l else l.swapDenseBlock move eraseDenseIndex

/-- `Get`: a null pointer, `some none`, or the element. -/
def get (l : SparseArray Z α) (sparseIndex : UInt32) : Option (Option α) :=
  match l.sparseBlocks.get sparseIndex with
  | none => some none
  | some sparseBlock =>
    (l.denseBlock (l.sparseBlocks.mem sparseBlock).data.toNat).map fun block => some block.data

/-- `GetPairOfSparseIndexAndDataByDenseIndex`. -/
def getPairOfSparseIndexAndDataByDenseIndex (l : SparseArray Z α) (denseIndex : UInt32) :
    Option (UInt32 × α) :=
  (l.denseBlock denseIndex.toNat).map fun block => (block.sparseIndex, block.data)

/-- The iteration from `begin()` to `end()`. -/
def iterate (l : SparseArray Z α) (fuel : Nat) : Option (List (UInt32 × α)) :=
  MakeIterableFromThis.iterate l.count l.getPairOfSparseIndexAndDataByDenseIndex fuel

/-- The array for a loop that erases. -/
def container (Z : SparseArraySizes) (move : Move α) :
    MakeIterableFromThis.Container (SparseArray Z α) α where
  count := count
  getPairOfSparseIndexAndDataByDenseIndex := getPairOfSparseIndexAndDataByDenseIndex
  eraseBySparseIndex := eraseBySparseIndex move
  get := get

/-! ## Runs -/

/-- The operations, with the element that the arguments of `Emplace` make. -/
inductive Op (α : Type u)
  | emplace (a : α)
  | eraseBySparseIndex (sparseIndex : UInt32)

/-- An array and the map that it stands for. -/
structure World (Z : SparseArraySizes) (α : Type u) where
  array : SparseArray Z α
  live : UInt32 → Option α

/-- An operation, on the array and on the map. -/
def step (move : Move α) (w : World Z α) : Op α → Option (World Z α)
  | .emplace a => (w.array.emplace a).map fun r => ⟨r.1, Function.update w.live r.2 (some a)⟩
  | .eraseBySparseIndex sparseIndex =>
    (w.array.eraseBySparseIndex move sparseIndex).map fun l =>
      ⟨l, Function.update w.live sparseIndex none⟩

end SparseArray

end RatkiniaServer.MemoryPool
