import RatkiniaServer.MemoryPool.Proofs.MakeIterableFromThis
import RatkiniaServer.MemoryPool.Proofs.Slots
import RatkiniaServer.MemoryPool.SparseList

/-!
# `SparseList` is a map

The dense pages pack the live indices, with the dense index that each slot has as its position.
`EmplaceAt` and `EraseBySparseIndex` keep this whatever becomes of the two lists of `sparseBlocks_`,
since they go by the flags of the slots. `Emplace` takes the head of the free list; it returns an index
that is not live as long as no operation has unlinked a head with a stale back pointer.
-/

namespace RatkiniaServer.MemoryPool.SparseList

open IndexedUnmanagedList (Chains)
open PackedArray Transition

universe u

variable {α : Type u} {Z : SparseListSizes}

theorem denseBlocksPerPage_pos (Z : SparseListSizes) : 0 < Z.denseBlocksPerPage :=
  Nat.div_pos Z.holdsDenseBlock (by decide)

@[simp] theorem densePosition_eq (d : Nat) : Z.densePosition d = d := Nat.div_add_mod' ..

/-- A dense block is in a page that exists exactly if the pages have that many blocks. -/
theorem div_lt_pages {d pages : Nat} :
    d / Z.denseBlocksPerPage < pages ↔ d < pages * Z.denseBlocksPerPage :=
  Nat.div_lt_iff_lt_mul (denseBlocksPerPage_pos Z)

theorem denseBlock_of_lt {l : SparseList Z α} {d : Nat}
    (hd : d < l.densePageCount * Z.denseBlocksPerPage) : l.denseBlock d = some (l.denseBlocks d) := by
  rw [denseBlock, if_pos (div_lt_pages.mpr hd), densePosition_eq]

theorem get_eq (l : SparseList Z α) :
    l.get = Option.map SparseBlock.data ∘ l.sparseBlocks.lookup := by
  funext i
  rw [get, Function.comp_apply, IndexedUnmanagedList.lookup, Option.map_map]
  rfl

/-! ## The invariant -/

/-- The position of an index in the dense pages. -/
def position (l : SparseList Z α) : UInt32 → Option Nat :=
  Option.map (fun block => block.denseIndex.toNat) ∘ l.sparseBlocks.lookup

/-- The list has the elements of the map, and its dense pages pack their indices. -/
structure Represents (l : SparseList Z α) (live : UInt32 → Option α) : Prop where
  get : l.get = live
  packed : Packed l.position l.denseBlocks l.count
  pages : l.count ≤ l.densePageCount * Z.denseBlocksPerPage

variable {l l' : SparseList Z α} {live : UInt32 → Option α} {i : UInt32} {a : α}

theorem Represents.lookup_eq_none_iff (h : Represents l live) :
    l.sparseBlocks.lookup i = none ↔ live i = none := by
  rw [← h.get, get_eq, Function.comp_apply, Option.map_eq_none_iff]

theorem Represents.exists_lookup (h : Represents l live) (hi : live i = some a) :
    ∃ block, l.sparseBlocks.lookup i = some block ∧ block.data = a := by
  rw [← h.get, get_eq, Function.comp_apply] at hi
  exact Option.map_eq_some_iff.mp hi

theorem Represents.position_isSome (h : Represents l live) :
    (l.position i).isSome = (live i).isSome := by
  rw [← h.get, get_eq, position, Function.comp_apply, Function.comp_apply, Option.isSome_map,
    Option.isSome_map]

theorem represents_empty (rawSparse : Memory (SparseBlock α)) (rawDense : Nat → UInt32) :
    Represents (empty Z rawSparse rawDense) fun _ => none where
  get := by
    rw [get_eq]
    funext i
    rw [Function.comp_apply, empty, IndexedUnmanagedList.lookup_empty]
    rfl
  packed := by
    have hnone : (empty Z rawSparse rawDense).position = fun _ => none := by
      funext i
      rw [position, Function.comp_apply, empty, IndexedUnmanagedList.lookup_empty]
      rfl
    rw [hnone]
    exact packed_empty _
  pages := Nat.zero_le _

/-! ## The operations -/

/-- `EmplaceImpl` on a slot that has just been allocated. -/
theorem Represents.emplaceImpl (h : Represents l live) (hi : live i = none)
    {sparseBlocks : IndexedUnmanagedList Z.sparse (SparseBlock α)} {block : SparseBlock α}
    (hlookup : sparseBlocks.lookup = Function.update l.sparseBlocks.lookup i (some block)) (a : α) :
    Represents ({ l with sparseBlocks := sparseBlocks }.emplaceImpl i i.toNat a)
      (Function.update live i (some a)) := by
  have hnone : l.position i = none := by
    rw [← Option.not_isSome_iff_eq_none, h.position_isSome, hi]
    exact Bool.false_ne_true
  have hcount : l.count < 2 ^ 32 := h.packed.count_lt_two_pow hnone
  have hlookup' : ({ l with sparseBlocks := sparseBlocks }.emplaceImpl i i.toNat a).sparseBlocks.lookup =
      Function.update l.sparseBlocks.lookup i (some ⟨UInt32.ofNat l.count, a⟩) := by
    have hself : sparseBlocks.lookup i = some block := by rw [hlookup, Function.update_self]
    refine (IndexedUnmanagedList.setData_lookup hself).trans ?_
    rw [hlookup, Function.update_idem]
  refine ⟨?_, ?_, ?_⟩
  · rw [get_eq, hlookup', Function.comp_update, ← get_eq, h.get]
    rfl
  · have hposition : ({ l with sparseBlocks := sparseBlocks }.emplaceImpl i i.toNat a).position =
        Function.update l.position i (some l.count) := by
      rw [position, hlookup', Function.comp_update, position, Option.map_some,
        UInt32.toNat_ofNat_of_lt' hcount]
    rw [hposition, SparseList.emplaceImpl, densePosition_eq]
    exact h.packed.push hnone
  · change l.count + 1 ≤ max l.densePageCount (l.count / Z.denseBlocksPerPage + 1) * _
    have hlt := Nat.lt_succ_self (l.count / Z.denseBlocksPerPage)
    have hmul := div_lt_pages.mp hlt
    exact Nat.le_trans hmul (Nat.mul_le_mul_right _ (Nat.le_max_right ..))

/-- `EmplaceAt` on an index that is not live. -/
theorem Represents.emplaceAt (hN : Z.sparse.nodesPerPage ≤ 2 ^ 31) (h : Represents l live)
    (hi : live i = none) (a : α) :
    ∃ l', l.emplaceAt i a = some l' ∧ Represents l' (Function.update live i (some a)) := by
  obtain ⟨sparseBlocks, block, heq, hlookup⟩ :=
    IndexedUnmanagedList.createAt_lookup hN (h.lookup_eq_none_iff.mpr hi)
  refine ⟨_, ?_, h.emplaceImpl hi hlookup a⟩
  rw [SparseList.emplaceAt, heq]

/-- `sparseBlock->DenseIndex = denseIndex` on an allocated slot. -/
theorem lookup_setDenseIndex {block : SparseBlock α} (hi : l.sparseBlocks.lookup i = some block)
    (d : UInt32) : (l.setDenseIndex i.toNat d).sparseBlocks.lookup =
      Function.update l.sparseBlocks.lookup i (some { block with denseIndex := d }) := by
  rw [setDenseIndex, IndexedUnmanagedList.setData_lookup hi,
    (IndexedUnmanagedList.get_of_lookup hi).2]

/-- The last dense block moves to the one that is erased. -/
theorem Represents.swapDenseBlock {rest : SparseList Z α} {d : UInt32} (h : Represents l live)
    (hi : l.position i = some d.toNat) (hcount : l.count = rest.count + 1) (hd : d.toNat ≠ rest.count)
    (hlookup : rest.sparseBlocks.lookup = Function.update l.sparseBlocks.lookup i none)
    (hdense : rest.denseBlocks = l.denseBlocks) (hpages : rest.densePageCount = l.densePageCount) :
    ∃ l', rest.swapDenseBlock d = some l' ∧ Represents l' (Function.update live i none) := by
  have hpacked := h.packed
  have hle := h.pages
  rw [hcount] at hpacked hle
  have hlt := hpacked.lt hi
  -- The last dense block has another live index `j`.
  set j := l.denseBlocks rest.count with hj
  have hlast : l.position j = some rest.count := hpacked.position_cells (Nat.lt_succ_self _)
  have hji : j ≠ i := hpacked.last_ne hi hd
  obtain ⟨block, hblock, -⟩ := Option.map_eq_some_iff.mp hlast
  have hblock' : rest.sparseBlocks.lookup j = some block := by
    rw [hlookup, Function.update_of_ne hji, hblock]
  have hread : rest.denseBlock rest.count = some j := by
    rw [denseBlock_of_lt (by rw [hpages]; omega), hdense]
  have hpage : d.toNat / Z.denseBlocksPerPage < rest.densePageCount := by
    rw [div_lt_pages, hpages]
    omega
  set moved : SparseList Z α :=
    { rest with denseBlocks := Function.update rest.denseBlocks (Z.densePosition d.toNat) j } with hmoved
  have heq : rest.swapDenseBlock d = some (moved.setDenseIndex j.toNat d) := by
    rw [SparseList.swapDenseBlock, if_pos hpage, hread, Option.bind_some,
      (IndexedUnmanagedList.get_of_lookup hblock').1, Option.map_some]
  have hlookup' : (moved.setDenseIndex j.toNat d).sparseBlocks.lookup = Function.update
      (Function.update l.sparseBlocks.lookup i none) j (some { block with denseIndex := d }) := by
    rw [lookup_setDenseIndex (l := moved) hblock', hmoved, hlookup]
  refine ⟨_, heq, ?_, ?_, ?_⟩
  · have hvalue : live j = some block.data := by
      rw [← h.get, get_eq, Function.comp_apply, hblock]
      rfl
    rw [get_eq, hlookup', Function.comp_update, Function.comp_update, ← get_eq, h.get, Option.map_none,
      Option.map_some, ← hvalue, ← Function.update_of_ne hji none live, Function.update_eq_self]
  · have hposition : (moved.setDenseIndex j.toNat d).position =
        Function.update (Function.update l.position i none) j (some d.toNat) := by
      rw [position, hlookup', Function.comp_update, Function.comp_update]
      rfl
    rw [hposition, setDenseIndex, hmoved, densePosition_eq, hdense]
    exact hpacked.swapPop hi hd
  · change rest.count ≤ rest.densePageCount * _
    rw [hpages]
    omega

/-- `EraseBySparseIndex` of a live index. -/
theorem Represents.eraseBySparseIndex (h : Represents l live) (hi : live i = some a) :
    ∃ l', l.eraseBySparseIndex i = some l' ∧ Represents l' (Function.update live i none) := by
  obtain ⟨block, hblock, -⟩ := h.exists_lookup hi
  obtain ⟨hget, hdata⟩ := IndexedUnmanagedList.get_of_lookup hblock
  have hposition : l.position i = some block.denseIndex.toNat := by
    rw [position, Function.comp_apply, hblock]
    rfl
  have hpos := h.packed.lt hposition
  set rest : SparseList Z α := { l.setDenseIndex i.toNat nullIndex with
    sparseBlocks := (l.setDenseIndex i.toNat nullIndex).sparseBlocks.erase i
    count := l.count - 1 } with hrest
  have hcount : l.count = rest.count + 1 := by
    change l.count = l.count - 1 + 1
    omega
  have hlookup : rest.sparseBlocks.lookup = Function.update l.sparseBlocks.lookup i none := by
    rw [hrest, IndexedUnmanagedList.erase_lookup, lookup_setDenseIndex hblock, Function.update_idem]
  have heq : l.eraseBySparseIndex i = if block.denseIndex.toNat = rest.count then some rest
      else rest.swapDenseBlock block.denseIndex := by
    rw [SparseList.eraseBySparseIndex, hget, Option.bind_some, hdata]
    rfl
  rw [heq]
  split_ifs with hlast
  · refine ⟨rest, rfl, ?_, ?_, ?_⟩
    · rw [get_eq, hlookup, Function.comp_update, ← get_eq, h.get]
      rfl
    · have hpacked := h.packed
      rw [hcount] at hpacked
      rw [position, hlookup, Function.comp_update]
      exact hpacked.pop (hposition.trans (congrArg some hlast))
    · have hle := h.pages
      change l.count - 1 ≤ l.densePageCount * _
      omega
  · exact h.swapDenseBlock hposition hcount hlast hlookup rfl rfl

/-! ## Lists that are only filled -/

/-- The list has exactly the given entries. -/
structure Lists (l : SparseList Z α) (entries : List (UInt32 × α)) : Prop where
  represents : Represents l l.get
  get_iff : ∀ i a, l.get i = some a ↔ (i, a) ∈ entries

theorem lists_empty (rawSparse : Memory (SparseBlock α)) (rawDense : Nat → UInt32) :
    Lists (empty Z rawSparse rawDense) [] := by
  have hempty := represents_empty (Z := Z) rawSparse rawDense
  refine ⟨hempty.get ▸ hempty, fun i a => ?_⟩
  rw [hempty.get]
  simp

theorem Lists.isSome_get_iff {entries : List (UInt32 × α)} (h : Lists l entries) :
    (l.get i).isSome ↔ i ∈ entries.map Prod.fst := by
  rw [Option.isSome_iff_exists, List.mem_map]
  constructor
  · rintro ⟨a, ha⟩
    exact ⟨(i, a), (h.get_iff i a).mp ha, rfl⟩
  · rintro ⟨⟨i, a⟩, hmem, rfl⟩
    exact ⟨a, (h.get_iff i a).mpr hmem⟩

/-- `EmplaceAt` on an index without an entry adds one. -/
theorem Lists.emplaceAt (hN : Z.sparse.nodesPerPage ≤ 2 ^ 31) {entries : List (UInt32 × α)}
    (h : Lists l entries) (hi : l.get i = none) (a : α) :
    ∃ l', l.emplaceAt i a = some l' ∧ Lists l' (entries ++ [(i, a)]) := by
  obtain ⟨l', heq, hl'⟩ := h.represents.emplaceAt hN hi a
  refine ⟨l', heq, hl'.get ▸ hl', fun j b => ?_⟩
  rw [hl'.get, List.mem_append, List.mem_singleton, Prod.mk.injEq, ← h.get_iff]
  by_cases hj : j = i
  · rw [hj, Function.update_self, hi, Option.some.injEq]
    simp [eq_comm]
  · rw [Function.update_of_ne hj]
    simp [hj]

/-! ## Runs -/

/-- What the list promises for the map: `Get` finds the live elements; the dense blocks are distinct
live indices, and the block of each live index has the position of its own; iterating yields each live
index with its element exactly once. -/
structure Refines (w : World Z α) : Prop where
  get : ∀ i, w.list.get i = w.live i
  dense : ∀ d < w.list.count, ∃ i, w.list.denseBlock d = some i ∧ (w.live i).isSome
  distinct : ∀ d < w.list.count, ∀ d' < w.list.count,
    w.list.denseBlock d = w.list.denseBlock d' → d = d'
  position : ∀ i, (w.live i).isSome → ∃ block, w.list.sparseBlocks.lookup i = some block ∧
    block.denseIndex.toNat < w.list.count ∧ w.list.denseBlock block.denseIndex.toNat = some i
  iterate : ∃ fuel pairs, w.list.iterate fuel = some pairs ∧ (pairs.map Prod.fst).Nodup ∧
    ∀ i a, (i, a) ∈ pairs ↔ w.live i = some a

/-- The calls that the list allows: `EmplaceAt` at an index that is not live, `EraseBySparseIndex` of
one that is, and fewer than 2³² elements. -/
def Allowed (w : World Z α) : Op α → Prop
  | .emplace _ => w.list.count + 1 < 2 ^ 32
  | .emplaceAt sparseIndex _ => w.live sparseIndex = none ∧ w.list.count + 1 < 2 ^ 32
  | .eraseBySparseIndex sparseIndex => (w.live sparseIndex).isSome

/-- `Emplace` finds a node that a 32-bit index can address; `EmplaceAt` does not take the head of the
free list, nor `EraseBySparseIndex` that of the allocated list, with a back pointer that is not
null. -/
def UnlinksClean (w : World Z α) : Op α → Prop
  | .emplace _ => w.list.sparseBlocks.nextFree < 2 ^ 32
  | .emplaceAt sparseIndex _ => w.list.sparseBlocks.freeHead = some sparseIndex.toNat →
      w.list.sparseBlocks.mem.prev sparseIndex.toNat = none
  | .eraseBySparseIndex sparseIndex => w.list.sparseBlocks.allocatedHead = some sparseIndex.toNat →
      w.list.sparseBlocks.mem.prev sparseIndex.toNat = none

theorem Represents.refines {w : World Z α} (h : Represents w.list w.live)
    (hcount : w.list.count < 2 ^ 32) : Refines w := by
  have hread : ∀ d < w.list.count, w.list.denseBlock d = some (w.list.denseBlocks d) := fun d hd =>
    denseBlock_of_lt (Nat.lt_of_lt_of_le hd h.pages)
  refine ⟨fun i => congrFun h.get i, fun d hd => ⟨_, hread d hd, ?_⟩, fun d hd d' hd' heq => ?_,
    fun i hi => ?_, ?_⟩
  · rw [← h.position_isSome, h.packed.position_cells hd]
    rfl
  · rw [hread d hd, hread d' hd'] at heq
    exact h.packed.inj hd hd' (Option.some.inj heq)
  · obtain ⟨a, ha⟩ := Option.isSome_iff_exists.mp hi
    obtain ⟨block, hblock, -⟩ := h.exists_lookup ha
    have hposition : w.list.position i = some block.denseIndex.toNat := by
      rw [SparseList.position, Function.comp_apply, hblock]
      rfl
    have hlt := h.packed.lt hposition
    refine ⟨block, hblock, hlt, ?_⟩
    rw [hread _ hlt, h.packed.cells_eq hposition]
  · refine MakeIterableFromThis.iterate_packed h.packed hcount (fun i => h.position_isSome) ?_
    intro d hd
    obtain ⟨a, ha⟩ : ∃ a, w.live (w.list.denseBlocks d.toNat) = some a := by
      rw [← Option.isSome_iff_exists, ← h.position_isSome, h.packed.position_cells hd]
      rfl
    refine ⟨a, ?_, ha⟩
    rw [getPairOfSparseIndexAndDataByDenseIndex, hread _ hd, Option.bind_some, h.get, ha]
    rfl

/-- What every step keeps: the list represents the map, and its two lists are chains. -/
structure Sound (w : World Z α) : Prop where
  represents : Represents w.list w.live
  chains : ∃ pf pa free alloc, Chains w.list.sparseBlocks pf pa free alloc
  count_lt : w.list.count < 2 ^ 32

/-- `Emplace` returns an index that is not live. -/
theorem Sound.emplace (hN : Z.sparse.nodesPerPage ≤ 2 ^ 31) {w : World Z α} (h : Sound w) (a : α)
    (hcount : w.list.count + 1 < 2 ^ 32) (hfree : w.list.sparseBlocks.nextFree < 2 ^ 32) :
    ∃ l i, w.list.emplace a = some (l, i) ∧ w.live i = none ∧
      Sound ⟨l, Function.update w.live i (some a)⟩ := by
  obtain ⟨pf, pa, free, alloc, hch⟩ := h.chains
  obtain ⟨sparseBlocks, free', i, block, heq, hch', hnone, hlookup, -⟩ := hch.create_lookup hN hfree
  have hi := h.represents.lookup_eq_none_iff.mp hnone
  refine ⟨_, i, ?_, hi, h.represents.emplaceImpl hi hlookup a, ?_, hcount⟩
  · rw [SparseList.emplace, heq]
    rfl
  · exact ⟨_, _, _, _, IndexedUnmanagedList.Chains.setData hch' _ _⟩

/-- `EraseBySparseIndex` moves a slot from one list to the other, and writes dense indices. -/
theorem chains_eraseBySparseIndex (hch : ∃ pf pa free alloc, Chains l.sparseBlocks pf pa free alloc)
    (hhead : l.sparseBlocks.allocatedHead = some i.toNat → l.sparseBlocks.mem.prev i.toNat = none)
    (heq : l.eraseBySparseIndex i = some l') :
    ∃ pf pa free alloc, Chains l'.sparseBlocks pf pa free alloc := by
  obtain ⟨pf, pa, free, alloc, hch⟩ := hch
  obtain ⟨block, hget, heq⟩ := Option.bind_eq_some_iff.mp heq
  have hnull := IndexedUnmanagedList.Chains.setData hch block
    { (l.sparseBlocks.mem block).data with denseIndex := nullIndex }
  have herase := hnull.erase (show _ = some i.toNat → _ by
    rw [IndexedUnmanagedList.setData, Memory.prev_setData]
    exact hhead)
  dsimp only at heq
  split_ifs at heq with hlast
  · cases heq
    exact herase
  · obtain ⟨pf', pa', free', alloc', herase⟩ := herase
    rw [swapDenseBlock] at heq
    split_ifs at heq
    obtain ⟨swapSparseIndex, -, heq⟩ := Option.bind_eq_some_iff.mp heq
    obtain ⟨swapSparseBlock, -, rfl⟩ := Option.map_eq_some_iff.mp heq
    exact ⟨_, _, _, _, IndexedUnmanagedList.Chains.setData herase _ _⟩

theorem count_eraseBySparseIndex (heq : l.eraseBySparseIndex i = some l') :
    l'.count = l.count - 1 := by
  obtain ⟨block, hget, heq⟩ := Option.bind_eq_some_iff.mp heq
  dsimp only at heq
  split_ifs at heq with hlast
  · cases heq
    rfl
  · rw [swapDenseBlock] at heq
    split_ifs at heq
    obtain ⟨swapSparseIndex, -, heq⟩ := Option.bind_eq_some_iff.mp heq
    obtain ⟨swapSparseBlock, -, rfl⟩ := Option.map_eq_some_iff.mp heq
    rfl

/-- Each allowed step that unlinks no stale head goes through and keeps the list sound. -/
theorem Sound.step (hN : Z.sparse.nodesPerPage ≤ 2 ^ 31) {w : World Z α} {op : Op α} (h : Sound w)
    (hallowed : Allowed w op) (hclean : UnlinksClean w op) :
    ∃ w', SparseList.step w op = some w' ∧ Sound w' := by
  cases op with
  | emplace a =>
    obtain ⟨l, i, heq, -, hsound⟩ := h.emplace hN a hallowed hclean
    refine ⟨_, ?_, hsound⟩
    rw [SparseList.step, heq]
    rfl
  | emplaceAt i a =>
    obtain ⟨hi, hcount⟩ := hallowed
    obtain ⟨pf, pa, free, alloc, hch⟩ := h.chains
    obtain ⟨sparseBlocks, pf', pa', free', alloc', hcreate, hch'⟩ :=
      hch.createAt hN (h.represents.lookup_eq_none_iff.mpr hi) hclean
    obtain ⟨l, heq, hrepresents⟩ := h.represents.emplaceAt hN hi a
    have hl := heq
    rw [SparseList.emplaceAt, hcreate] at hl
    obtain rfl := Option.some.inj hl
    refine ⟨⟨_, Function.update w.live i (some a)⟩, ?_, hrepresents, ?_, hcount⟩
    · rw [SparseList.step, heq]
      rfl
    · exact ⟨_, _, _, _, IndexedUnmanagedList.Chains.setData hch' _ _⟩
  | eraseBySparseIndex i =>
    obtain ⟨a, ha⟩ := Option.isSome_iff_exists.mp hallowed
    obtain ⟨l, heq, hrepresents⟩ := h.represents.eraseBySparseIndex ha
    refine ⟨⟨l, Function.update w.live i none⟩, ?_, hrepresents, ?_, ?_⟩
    · rw [SparseList.step, heq]
      rfl
    · exact chains_eraseBySparseIndex h.chains hclean heq
    · have hlt := h.count_lt
      have hle := count_eraseBySparseIndex heq
      change l.count < _
      omega

/-- A new list and the empty map. -/
def fresh (Z : SparseListSizes) (rawSparse : Memory (SparseBlock α)) (rawDense : Nat → UInt32) :
    World Z α :=
  ⟨empty Z rawSparse rawDense, fun _ => none⟩

/-- **`SparseList` refines a map.** For pages of at most 2³¹ sparse blocks, every run of allowed calls
that unlinks no stale head goes through; at its end the list keeps its promises, and `Emplace` returns
an index that is not live. -/
theorem refines_of_unlinksClean (hN : Z.sparse.nodesPerPage ≤ 2 ^ 31)
    (rawSparse : Memory (SparseBlock α)) (rawDense : Nat → UInt32) (ops : List (Op α))
    (hok : Meets step (fun w op => Allowed w op ∧ UnlinksClean w op) (fresh Z rawSparse rawDense) ops) :
    ∃ w, run step (fresh Z rawSparse rawDense) ops = some w ∧ Refines w ∧
      ∀ a, Allowed w (.emplace a) → UnlinksClean w (.emplace a) →
        ∃ l i, w.list.emplace a = some (l, i) ∧ w.live i = none := by
  have hfresh : Sound (fresh Z rawSparse rawDense) := by
    refine ⟨represents_empty rawSparse rawDense, ⟨none, none, [], [], ?_⟩, ?_⟩
    · exact IndexedUnmanagedList.chains_empty _ rawSparse
    · exact Nat.two_pow_pos 32
  obtain ⟨w, hrun, hsound⟩ := run_total (P := Sound)
    (fun w op h hop => h.step hN hop.1 hop.2) hfresh hok
  refine ⟨w, hrun, hsound.represents.refines hsound.count_lt, fun a hcount hfree => ?_⟩
  obtain ⟨l, i, heq, hnone, -⟩ := hsound.emplace hN a hcount hfree
  exact ⟨l, i, heq, hnone⟩

instance (w : World Z α) (op : Op α) : Decidable (Allowed w op) :=
  match op with
  | .emplace _ => inferInstanceAs (Decidable (_ < _))
  | .emplaceAt _ _ => inferInstanceAs (Decidable (_ = none ∧ _ < _))
  | .eraseBySparseIndex _ => inferInstanceAs (Decidable (_ = true))

instance (w : World Z α) (op : Op α) : Decidable (UnlinksClean w op) :=
  match op with
  | .emplace _ => inferInstanceAs (Decidable (_ < _))
  | .emplaceAt _ _ => inferInstanceAs (Decidable (_ = _ → _ = none))
  | .eraseBySparseIndex _ => inferInstanceAs (Decidable (_ = _ → _ = none))

/-- Pages of three sparse blocks with a four-byte element, and of two dense blocks. -/
def threeBlockPages : SparseListSizes := ⟨87, 4, 8, by decide, by decide⟩

/-- The empty list over pages of three sparse blocks. -/
def freshThree : World threeBlockPages UInt32 :=
  fresh _ (fun _ => ⟨0, false, none, none, 0, 0⟩) fun _ => 0

theorem refines_of_unlinksClean_threeBlockPages : ∃ w, run step freshThree
    [.emplace 10, .emplace 11, .eraseBySparseIndex 1, .emplaceAt 4 12] = some w ∧ Refines w := by
  obtain ⟨w, hrun, hrefines, -⟩ := refines_of_unlinksClean (Z := threeBlockPages) (by decide)
    (fun _ => ⟨0, false, none, none, 0, 0⟩) (fun _ => 0)
    [.emplace 10, .emplace (11 : UInt32), .eraseBySparseIndex 1, .emplaceAt 4 12] (by decide)
  exact ⟨w, hrun, hrefines⟩

/-- After the middle one of three elements is erased and emplaced again at its index, `Emplace` returns
this index a second time. -/
theorem emplace_returns_live_index : ∃ w l,
    Meets step Allowed freshThree [.emplace 10, .emplace 11, .emplace 12, .eraseBySparseIndex 1,
      .emplaceAt 1 13, .emplace 14] ∧
    run step freshThree [.emplace 10, .emplace 11, .emplace 12, .eraseBySparseIndex 1,
      .emplaceAt 1 13] = some w ∧
    w.live 1 = some 13 ∧ w.list.emplace 14 = some (l, 1) :=
  ⟨_, _, by decide, rfl, by decide, rfl⟩

end RatkiniaServer.MemoryPool.SparseList
