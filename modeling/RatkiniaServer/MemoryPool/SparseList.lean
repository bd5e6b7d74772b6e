import RatkiniaServer.MemoryPool.IndexedUnmanagedList
import RatkiniaServer.MemoryPool.MakeIterableFromThis

/-!
# `SparseList`

The map of `Util/MemoryPool/SparseList.h` from 32-bit indices to elements. The elements stay in the
slots of an `IndexedUnmanagedList`; the indices of the live ones are packed in dense pages, and each
slot has the position of its dense block. The dense pages are modelled by a map from positions to
dense blocks. `none` as the result of an operation is a failed check or the dereference of a null
pointer.
-/

namespace RatkiniaServer.MemoryPool

universe u

variable {α : Type u}

/-- The constructor arguments of a `SparseList`, for pages that hold at least one block. -/
structure SparseListSizes where
  sparsePageSize : Nat
  dataSize : Nat
  densePageSize : Nat
  holdsSparseBlock : nodeMetadataSize + (4 + dataSize) ≤ sparsePageSize
  holdsDenseBlock : 4 ≤ densePageSize

namespace SparseListSizes

/-- The pages of `sparseBlocks_`. -/
def sparse (Z : SparseListSizes) : Layout := ⟨Z.sparsePageSize, 4 + Z.dataSize, Z.holdsSparseBlock⟩

/-- `DenseBlocksPerPage`. -/
def denseBlocksPerPage (Z : SparseListSizes) : Nat := Z.densePageSize / 4

/-- The position of the dense block `densePages_[denseIndex / DenseBlocksPerPage]` plus
`denseIndex % DenseBlocksPerPage` blocks. -/
def densePosition (Z : SparseListSizes) (denseIndex : Nat) : Nat :=
  denseIndex / Z.denseBlocksPerPage * Z.denseBlocksPerPage + denseIndex % Z.denseBlocksPerPage

end SparseListSizes

/-- A `SparseBlock` of a `SparseList`. -/
structure SparseBlock (α : Type u) where
  denseIndex : UInt32
  data : α

/-- The state of a `SparseList`; `densePageCount` is `densePages_.size()`. -/
structure SparseList (Z : SparseListSizes) (α : Type u) where
  count : Nat
  sparseBlocks : IndexedUnmanagedList Z.sparse (SparseBlock α)
  densePageCount : Nat
  denseBlocks : Nat → UInt32

namespace SparseList

variable {Z : SparseListSizes}

/-- `NullIndex`. -/
def nullIndex : UInt32 := 0xFFFFFFFF

/-- The constructor. `rawSparse` and `rawDense` are the content of the memory of the pages to come;
no block is initialised when a page is allocated. -/
def empty (Z : SparseListSizes) (rawSparse : Memory (SparseBlock α)) (rawDense : Nat → UInt32) :
    SparseList Z α where
  count := 0
  sparseBlocks := .empty Z.sparse (fun _ block => block) rawSparse
  densePageCount := 0
  denseBlocks := rawDense

/-- `sparseBlock->DenseIndex = denseIndex`. -/
def setDenseIndex (l : SparseList Z α) (sparseBlock : Nat) (denseIndex : UInt32) : SparseList Z α :=
  { l with
    sparseBlocks := l.sparseBlocks.setData sparseBlock
      { (l.sparseBlocks.mem sparseBlock).data with denseIndex := denseIndex } }

/-- `EmplaceImpl`, with the element that the arguments make. -/
def emplaceImpl (l : SparseList Z α) (sparseIndex : UInt32) (sparseBlock : Nat) (a : α) :
    SparseList Z α :=
  let denseIndex := l.count
  let densePageIndex := denseIndex / Z.denseBlocksPerPage
  { count := l.count + 1
    sparseBlocks := l.sparseBlocks.setData sparseBlock ⟨UInt32.ofNat denseIndex, a⟩
    densePageCount := max l.densePageCount (densePageIndex + 1)
    denseBlocks := Function.update l.denseBlocks (Z.densePosition denseIndex) sparseIndex }

/-- `Emplace`: the list and the index of the new element. -/
def emplace (l : SparseList Z α) (a : α) : Option (SparseList Z α × UInt32) :=
  l.sparseBlocks.create.map fun (sparseBlocks, sparseIndex, sparseBlock) =>
    ({ l with sparseBlocks := sparseBlocks }.emplaceImpl sparseIndex sparseBlock a, sparseIndex)

/-- `EmplaceAt`. -/
def emplaceAt (l : SparseList Z α) (sparseIndex : UInt32) (a : α) : Option (SparseList Z α) :=
  match l.sparseBlocks.createAt sparseIndex with
  | some (sparseBlocks, some sparseBlock) =>
    some ({ l with sparseBlocks := sparseBlocks }.emplaceImpl sparseIndex sparseBlock a)
  | _ => none

/-- The dense block at an index that is read, if its page exists. -/
def denseBlock (l : SparseList Z α) (denseIndex : Nat) : Option UInt32 :=
  if denseIndex / Z.denseBlocksPerPage < l.densePageCount then
    some (l.denseBlocks (Z.densePosition denseIndex))
  else none

/-- The end of `EraseBySparseIndex`: the last dense block moves to the one that is erased. -/
def swapDenseBlock (l : SparseList Z α) (eraseDenseIndex : UInt32) : Option (SparseList Z α) :=
  if eraseDenseIndex.toNat / Z.denseBlocksPerPage < l.densePageCount then
    (l.denseBlock l.count).bind fun swapSparseIndex =>
      (l.sparseBlocks.get swapSparseIndex).map fun swapSparseBlock =>
        { l with
          denseBlocks := Function.update l.denseBlocks (Z.densePosition eraseDenseIndex.toNat)
            swapSparseIndex }.setDenseIndex swapSparseBlock eraseDenseIndex
  else none

/-- `EraseBySparseIndex`. -/
def eraseBySparseIndex (l : SparseList Z α) (sparseIndex : UInt32) : Option (SparseList Z α) :=
  (l.sparseBlocks.get sparseIndex).bind fun sparseBlock =>
    let eraseDenseIndex := (l.sparseBlocks.mem sparseBlock).data.denseIndex
    let l := l.setDenseIndex sparseBlock nullIndex
    let l := { l with sparseBlocks := l.sparseBlocks.erase sparseIndex, count := l.count - 1 }
    if eraseDenseIndex.toNat = l.count then some l else l.swapDenseBlock eraseDenseIndex

/-- `Get`. -/
def get (l : SparseList Z α) (sparseIndex : UInt32) : Option α :=
  (l.sparseBlocks.get sparseIndex).map fun sparseBlock => (l.sparseBlocks.mem sparseBlock).data.data

/-- `GetPairOfSparseIndexAndDataByDenseIndex`. -/
def getPairOfSparseIndexAndDataByDenseIndex (l : SparseList Z α) (denseIndex : UInt32) :
    Option (UInt32 × α) :=
  (l.denseBlock denseIndex.toNat).bind fun sparseIndex =>
    (l.get sparseIndex).map fun a => (sparseIndex, a)

/-- The iteration from `begin()` to `end()`. -/
def iterate (l : SparseList Z α) (fuel : Nat) : Option (List (UInt32 × α)) :=
  MakeIterableFromThis.iterate l.count l.getPairOfSparseIndexAndDataByDenseIndex fuel

/-- The list for a loop that erases. -/
def container (Z : SparseListSizes) (α : Type u) :
    MakeIterableFromThis.Container (SparseList Z α) α where
  count := count
  getPairOfSparseIndexAndDataByDenseIndex := getPairOfSparseIndexAndDataByDenseIndex
  eraseBySparseIndex := eraseBySparseIndex
  get l sparseIndex := some (l.get sparseIndex)

/-! ## Runs -/

/-- The operations, with the element that the arguments of `Emplace` and `EmplaceAt` make. -/
inductive Op (α : Type u)
  | emplace (a : α)
  | emplaceAt (sparseIndex : UInt32) (a : α)
  | eraseBySparseIndex (sparseIndex : UInt32)

/-- A list and the map that it stands for. -/
structure World (Z : SparseListSizes) (α : Type u) where
  list : SparseList Z α
  live : UInt32 → Option α

/-- An operation, on the list and on the map. -/
def step (w : World Z α) : Op α → Option (World Z α)
  | .emplace a => (w.list.emplace a).map fun r => ⟨r.1, Function.update w.live r.2 (some a)⟩
  | .emplaceAt sparseIndex a =>
    (w.list.emplaceAt sparseIndex a).map fun l => ⟨l, Function.update w.live sparseIndex (some a)⟩
  | .eraseBySparseIndex sparseIndex =>
    (w.list.eraseBySparseIndex sparseIndex).map fun l =>
      ⟨l, Function.update w.live sparseIndex none⟩

end SparseList

end RatkiniaServer.MemoryPool
