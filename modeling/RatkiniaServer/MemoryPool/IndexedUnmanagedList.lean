import RatkiniaServer.Lib.Linked
import RatkiniaServer.Lib.Transition
import Mathlib.Tactic.Common
import Mathlib.Algebra.Group.Nat.Defs

/-!
# `IndexedUnmanagedList`

The paged slot list of `Util/MemoryPool/IndexedUnmanagedList.h`. Nodes live in pages that are never
moved or freed, so a `Node*` is modelled by the node's position `page * NodesPerPage + block`, a null
pointer by `none`, and the memory of all pages by a map from positions to nodes. Every node is on one
of two intrusive doubly linked lists, the free list or the allocated list; `Create`, `CreateAt` and
`Erase` move it from one to the other. `none` as the result of an operation is the dereference of a
null pointer.
-/

namespace RatkiniaServer.MemoryPool

open LinkedList (setAt Linked)

universe u

variable {δ : Type u}

/-- `IndexedUnmanagedList::Node`: the metadata of a slot and its payload, `char Data[]`, as a value of
the payload type. -/
structure Node (δ : Type u) where
  index : UInt32
  allocated : Bool
  next : Option Nat
  prev : Option Nat
  data : δ

/-- The memory of the pages: the node at every position. -/
abbrev Memory (δ : Type u) := Nat → Node δ

namespace Memory

/-- All `Next` pointers. -/
def next (m : Memory δ) (n : Nat) : Option Nat := (m n).next

/-- All `Prev` pointers. -/
def prev (m : Memory δ) (n : Nat) : Option Nat := (m n).prev

/-- Overwrite a node. -/
def setNode (m : Memory δ) (n : Nat) (node : Node δ) : Memory δ := Function.update m n node

/-- `node->Next = v`. -/
def setNext (m : Memory δ) (n : Nat) (v : Option Nat) : Memory δ := m.setNode n { m n with next := v }

/-- `node->Prev = v`. -/
def setPrev (m : Memory δ) (n : Nat) (v : Option Nat) : Memory δ := m.setNode n { m n with prev := v }

/-- `if (h) h->Prev = v`. -/
def setPrevAt (m : Memory δ) (h v : Option Nat) : Memory δ :=
  match h with
  | some y => m.setPrev y v
  | none => m

/-- `node->Allocated = b`. -/
def setAllocated (m : Memory δ) (n : Nat) (b : Bool) : Memory δ :=
  m.setNode n { m n with allocated := b }

/-- Writing the payload of a node through the `TData&` that `Create`, `CreateAt` and `Get` return. -/
def setData (m : Memory δ) (n : Nat) (d : δ) : Memory δ :=
  m.setNode n { m n with data := d }

end Memory

/-- `NodeMetadataSize`, the packed size of `Index`, `Allocated`, `Next` and `Prev`. -/
def nodeMetadataSize : Nat := 4 + 1 + 8 + 8

/-- The constructor arguments `pageSize` and `dataSize`, for a page that holds at least one node. -/
structure Layout where
  pageSize : Nat
  dataSize : Nat
  holdsNode : nodeMetadataSize + dataSize ≤ pageSize

namespace Layout

/-- `NodeSize`. -/
def nodeSize (L : Layout) : Nat := nodeMetadataSize + L.dataSize

/-- `NodesPerPage`. -/
def nodesPerPage (L : Layout) : Nat := L.pageSize / L.nodeSize

theorem nodesPerPage_pos (L : Layout) : 0 < L.nodesPerPage := by
  have hsize : 0 < L.nodeSize := by
    unfold nodeSize nodeMetadataSize
    omega
  exact Nat.div_pos L.holdsNode hsize

/-- How often the loop `for (int i = NodesPerPage - 1; i >= 0; --i)` runs: the start value is
converted to a 32-bit `int`. -/
def pageLoopCount (L : Layout) : Nat :=
  if (L.nodesPerPage - 1) % 2 ^ 32 < 2 ^ 31 then (L.nodesPerPage - 1) % 2 ^ 32 + 1 else 0

theorem pageLoopCount_eq {L : Layout} (h : L.nodesPerPage ≤ 2 ^ 31) :
    L.pageLoopCount = L.nodesPerPage := by
  have hpos := L.nodesPerPage_pos
  have hmod : (L.nodesPerPage - 1) % 2 ^ 32 = L.nodesPerPage - 1 := Nat.mod_eq_of_lt (by omega)
  unfold pageLoopCount
  rw [hmod, if_pos (by omega)]
  omega

end Layout

/-- The mutable state of an `IndexedUnmanagedList`; `pageCount` is `pages_.size()`. -/
structure IndexedUnmanagedList (L : Layout) (δ : Type u) where
  /-- `BlockInitializerWhenPageAllocated`: the payload it leaves in a block, from the block's index
  and what the fresh memory held. -/
  blockInitializerWhenPageAllocated : UInt32 → δ → δ
  pageCount : Nat
  /-- The nodes of the pages; beyond the last page, what `operator new` is going to hand out. -/
  mem : Memory δ
  freeHead : Option Nat
  allocatedHead : Option Nat

namespace IndexedUnmanagedList

variable {L : Layout}

/-- The constructor. `raw` is the uninitialised content of the memory of the pages to come. -/
def empty (L : Layout) (init : UInt32 → δ → δ) (raw : Memory δ) : IndexedUnmanagedList L δ where
  blockInitializerWhenPageAllocated := init
  pageCount := 0
  mem := raw
  freeHead := none
  allocatedHead := none

/-- The number of nodes in the pages. -/
def nodeCount (l : IndexedUnmanagedList L δ) : Nat := l.pageCount * L.nodesPerPage

/-- The loop of `ExtendPage` over the blocks `k - 1, ..., 0` of the page whose first node is at
position `base`; the accumulators are `headNodeOfNewPage` and `lastNodeOfNewPage`. -/
def extendPageLoop (init : UInt32 → δ → δ) (base : Nat) :
    Nat → Memory δ → Option Nat → Option Nat → Memory δ × Option Nat × Option Nat
  | 0, m, head, last => (m, head, last)
  | i + 1, m, head, last =>
    let current := base + i
    let index := UInt32.ofNat base + UInt32.ofNat i
    let m := m.setNode current
      { index := index, allocated := false, next := head, prev := none, data := (m current).data }
    let m := m.setPrevAt head (some current)
    let last := if last = none then some current else last
    let m := m.setData current (init index (m current).data)
    extendPageLoop init base i m (some current) last

/-- `ExtendPage`: the list with one more page, and the first and last node of that page. -/
def extendPage (l : IndexedUnmanagedList L δ) :
    IndexedUnmanagedList L δ × Option Nat × Option Nat :=
  let (m, head, last) := extendPageLoop l.blockInitializerWhenPageAllocated l.nodeCount
    L.pageLoopCount l.mem none none
  ({ l with pageCount := l.pageCount + 1, mem := m }, head, last)

/-- The body of the `while` loop of `CreateAt`: a new page in front of the free list. -/
def prependPage (l : IndexedUnmanagedList L δ) : Option (IndexedUnmanagedList L δ) :=
  let (l', head, last) := l.extendPage
  match last with
  | none => none
  | some lastOfNewPage =>
    let m := (l'.mem.setNext lastOfNewPage l'.freeHead).setPrevAt l'.freeHead (some lastOfNewPage)
    some { l' with mem := m, freeHead := head }

/-- The `while` loop of `CreateAt`, which runs until the given number of pages has been added. -/
def prependPages : Nat → IndexedUnmanagedList L δ → Option (IndexedUnmanagedList L δ)
  | 0, l => some l
  | k + 1, l => l.prependPage.bind (prependPages k)

/-- Unlink a node from the list whose head is `head`: the three assignments that `CreateAt` makes to
the free list and `Erase` to the allocated list. -/
def unlink (m : Memory δ) (head : Option Nat) (n : Nat) : Memory δ × Option Nat :=
  let (m, head) := match m.prev n with
    | some q => (m.setNext q (m.next n), head)
    | none => (m, m.next n)
  (m.setPrevAt (m.next n) (m.prev n), head)

/-- Link a node in front of the list whose head is `head`: `n->Next = head; if (head) head->Prev = n`. -/
def linkFront (m : Memory δ) (head : Option Nat) (n : Nat) : Memory δ :=
  (m.setNext n head).setPrevAt head (some n)

/-- The first statement of `Create`: a new page, when there is no free node. -/
def ensureFree (l : IndexedUnmanagedList L δ) : IndexedUnmanagedList L δ :=
  if l.freeHead = none then
    let (l', headOfNewPage, _) := l.extendPage
    { l' with freeHead := headOfNewPage }
  else l

/-- `Create`: the index of the new slot and its node. -/
def create (l : IndexedUnmanagedList L δ) : Option (IndexedUnmanagedList L δ × UInt32 × Nat) :=
  let l := l.ensureFree
  match l.freeHead with
  | none => none
  | some returnNode =>
    let freeHead := l.mem.next returnNode
    let m := l.mem.setPrevAt freeHead none
    let m := (m.setNext returnNode none).setPrev returnNode none
    let m := (linkFront m l.allocatedHead returnNode).setAllocated returnNode true
    some ({ l with mem := m, freeHead := freeHead, allocatedHead := some returnNode },
      (m returnNode).index, returnNode)

/-- The position of the node that an index addresses: `pages_[index / NodesPerPage]` plus
`index % NodesPerPage` nodes. -/
def position (L : Layout) (index : UInt32) : Nat :=
  index.toNat / L.nodesPerPage * L.nodesPerPage + index.toNat % L.nodesPerPage

/-- The end of `CreateAt`: the node leaves the free list and becomes the head of the allocated one. -/
def allocateNode (l : IndexedUnmanagedList L δ) (n : Nat) : IndexedUnmanagedList L δ :=
  let (m, freeHead) := unlink l.mem l.freeHead n
  let m := (linkFront m l.allocatedHead n).setAllocated n true
  { l with mem := m, freeHead := freeHead, allocatedHead := some n }

/-- `CreateAt`: the node of the slot, or a null pointer when it is allocated already. -/
def createAt (l : IndexedUnmanagedList L δ) (index : UInt32) :
    Option (IndexedUnmanagedList L δ × Option Nat) :=
  (prependPages (index.toNat / L.nodesPerPage + 1 - l.pageCount) l).map fun l =>
    let n := position L index
    if (l.mem n).allocated then (l, none) else (l.allocateNode n, some n)

/-- The end of `Erase`: the node leaves the allocated list and becomes the head of the free one. -/
def freeNode (l : IndexedUnmanagedList L δ) (n : Nat) : IndexedUnmanagedList L δ :=
  let (m, allocatedHead) := unlink l.mem l.allocatedHead n
  let m := (linkFront m l.freeHead n).setAllocated n false
  { l with mem := m, freeHead := some n, allocatedHead := allocatedHead }

/-- `Erase`. -/
def erase (l : IndexedUnmanagedList L δ) (index : UInt32) : IndexedUnmanagedList L δ :=
  let n := position L index
  if l.pageCount ≤ index.toNat / L.nodesPerPage then l
  else if (l.mem n).allocated = false then l
  else l.freeNode n

/-- `Get`: the node of an allocated slot. -/
def get (l : IndexedUnmanagedList L δ) (index : UInt32) : Option Nat :=
  let n := position L index
  if l.pageCount ≤ index.toNat / L.nodesPerPage then none
  else if (l.mem n).allocated then some n else none

/-- Write the payload of a node. -/
def setData (l : IndexedUnmanagedList L δ) (n : Nat) (d : δ) : IndexedUnmanagedList L δ :=
  { l with mem := l.mem.setData n d }

/-- The loop `for (auto it = begin(); it != end(); ++it)` from the node `it`: the pairs `*it` it
visits, or `none` if it has not ended after `fuel` increments. -/
def iterateFrom (m : Memory δ) : Nat → Option Nat → Option (List (UInt32 × δ))
  | _, none => some []
  | 0, some _ => none
  | fuel + 1, some n =>
    (iterateFrom m fuel (m.next n)).map fun rest => ((m n).index, (m n).data) :: rest

/-- The iteration from `begin()` to `end()`. -/
def iterate (l : IndexedUnmanagedList L δ) (fuel : Nat) : Option (List (UInt32 × δ)) :=
  iterateFrom l.mem fuel l.allocatedHead

/-- The mutating operations. -/
inductive Op
  | create
  | createAt (index : UInt32)
  | erase (index : UInt32)

/-- One operation as a step. -/
def step (l : IndexedUnmanagedList L δ) : Op → Option (IndexedUnmanagedList L δ)
  | .create => l.create.map fun r => r.1
  | .createAt index => (l.createAt index).map fun r => r.1
  | .erase index => some (l.erase index)

end IndexedUnmanagedList

end RatkiniaServer.MemoryPool
