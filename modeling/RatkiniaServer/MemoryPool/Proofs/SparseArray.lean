import RatkiniaServer.MemoryPool.Proofs.MakeIterableFromThis
import RatkiniaServer.MemoryPool.Proofs.Slots
import RatkiniaServer.MemoryPool.SparseArray

/-!
# `SparseArray` is a map

The dense blocks pack the live indices with their elements. Since all indices come from `Create`, which
clears the back pointers of the node it takes, the two lists of `sparseBlocks_` stay chains, and nodes
that have never been used are taken in order. So the indices last as long as there are fewer than
2³² elements.
-/

namespace RatkiniaServer.MemoryPool.SparseArray

open IndexedUnmanagedList (Chains newPage)
open PackedArray Transition

universe u

variable {α : Type u} {Z : SparseArraySizes}

theorem denseBlocksPerPage_pos (Z : SparseArraySizes) : 0 < Z.denseBlocksPerPage :=
  Nat.div_pos Z.holdsDenseBlock (by omega)

@[simp] theorem densePosition_eq (d : Nat) : Z.densePosition d = d := Nat.div_add_mod' ..

/-- A dense block is in a page that exists exactly if the pages have that many blocks. -/
theorem div_lt_pages {d pages : Nat} :
    d / Z.denseBlocksPerPage < pages ↔ d < pages * Z.denseBlocksPerPage :=
  Nat.div_lt_iff_lt_mul (denseBlocksPerPage_pos Z)

theorem denseBlock_of_lt {l : SparseArray Z α} {d : Nat}
    (hd : d < l.densePageCount * Z.denseBlocksPerPage) : l.denseBlock d = some (l.denseBlocks d) := by
  rw [denseBlock, if_pos (div_lt_pages.mpr hd), densePosition_eq]

/-! ## The elements -/

/-- The position of an index in the dense pages. -/
def position (l : SparseArray Z α) : UInt32 → Option Nat :=
  Option.map UInt32.toNat ∘ l.sparseBlocks.lookup

/-- The dense blocks pack the live indices with the elements of the map. -/
structure Represents (l : SparseArray Z α) (live : UInt32 → Option α) : Prop where
  packed : Packed l.position (fun d => (l.denseBlocks d).sparseIndex) l.count
  value : ∀ i, live i = (l.position i).map fun d => (l.denseBlocks d).data
  pages : l.count ≤ l.densePageCount * Z.denseBlocksPerPage

variable {l l' : SparseArray Z α} {live : UInt32 → Option α} {i : UInt32} {a : α} {move : Move α}

theorem Represents.isSome (h : Represents l live) : (l.position i).isSome = (live i).isSome := by
  rw [h.value i, Option.isSome_map]

theorem Represents.lookup_eq_none_iff (h : Represents l live) :
    l.sparseBlocks.lookup i = none ↔ live i = none := by
  rw [h.value i, Option.map_eq_none_iff, position, Function.comp_apply, Option.map_eq_none_iff]

theorem Represents.exists_lookup (h : Represents l live) (hi : live i = some a) :
    ∃ d, l.sparseBlocks.lookup i = some d ∧ l.position i = some d.toNat ∧ d.toNat < l.count ∧
      (l.denseBlocks d.toNat).sparseIndex = i ∧ (l.denseBlocks d.toNat).data = a := by
  rw [h.value i] at hi
  obtain ⟨n, hn, rfl⟩ := Option.map_eq_some_iff.mp hi
  obtain ⟨d, hd, rfl⟩ := Option.map_eq_some_iff.mp hn
  exact ⟨d, hd, hn, h.packed.lt hn, h.packed.cells_eq hn, rfl⟩

theorem represents_empty (rawDense : Nat → DenseBlock α) (rawSparse : Memory UInt32) :
    Represents (empty Z rawDense rawSparse) fun _ => none := by
  have hnone : (empty Z rawDense rawSparse).position = fun _ => none := by
    funext i
    rw [position, Function.comp_apply, empty, IndexedUnmanagedList.lookup_empty]
    rfl
  refine ⟨?_, fun i => ?_, Nat.zero_le _⟩
  · rw [hnone]
    exact packed_empty _
  · rw [hnone]
    rfl

/-- `Emplace` into a slot that `Create` has allocated. -/
theorem Represents.emplace (h : Represents l live) (hi : live i = none)
    {sparseBlocks : IndexedUnmanagedList Z.sparse UInt32} {block : UInt32}
    (hcreate : l.sparseBlocks.create = some (sparseBlocks, i, i.toNat))
    (hlookup : sparseBlocks.lookup = Function.update l.sparseBlocks.lookup i (some block)) (a : α) :
    ∃ l', l.emplace a = some (l', i) ∧ l'.count = l.count + 1 ∧
      l'.sparseBlocks = sparseBlocks.setData i.toNat (UInt32.ofNat l.count) ∧
      Represents l' (Function.update live i (some a)) := by
  have hnone : l.position i = none := by
    rw [← Option.not_isSome_iff_eq_none, h.isSome, hi]
    exact Bool.false_ne_true
  have hcount : l.count < 2 ^ 32 := h.packed.count_lt_two_pow hnone
  refine ⟨_, by rw [SparseArray.emplace, hcreate, Option.map_some], rfl, rfl, ?_⟩
  set l' : SparseArray Z α :=
    { count := l.count + 1
      densePageCount := max l.densePageCount (l.count / Z.denseBlocksPerPage + 1)
      denseBlocks := Function.update l.denseBlocks (Z.densePosition l.count) ⟨i, a⟩
      sparseBlocks := sparseBlocks.setData i.toNat (UInt32.ofNat l.count) } with hl'
  have hdense : l'.denseBlocks = Function.update l.denseBlocks l.count ⟨i, a⟩ := by
    rw [hl', densePosition_eq]
  have hposition : l'.position = Function.update l.position i (some l.count) := by
    have hself : sparseBlocks.lookup i = some block := by rw [hlookup, Function.update_self]
    have hlookup' : l'.sparseBlocks.lookup =
        Function.update l.sparseBlocks.lookup i (some (UInt32.ofNat l.count)) := by
      refine (IndexedUnmanagedList.setData_lookup hself).trans ?_
      rw [hlookup, Function.update_idem]
    rw [position, hlookup', Function.comp_update, position, Option.map_some,
      UInt32.toNat_ofNat_of_lt' hcount]
  refine ⟨?_, fun j => ?_, ?_⟩
  · have hcells : (fun d => (l'.denseBlocks d).sparseIndex) =
        Function.update (fun d => (l.denseBlocks d).sparseIndex) l.count i := by
      rw [hdense]
      exact Function.comp_update DenseBlock.sparseIndex l.denseBlocks l.count ⟨i, a⟩
    rw [hposition, hcells]
    exact h.packed.push hnone
  · rw [hposition, hdense]
    by_cases hj : j = i
    · rw [hj, Function.update_self, Function.update_self, Option.map_some, Function.update_self]
    · rw [Function.update_of_ne hj, Function.update_of_ne hj, h.value j]
      refine Option.map_congr fun d hd => ?_
      rw [Function.update_of_ne (Nat.ne_of_lt (h.packed.lt hd))]
  · have hmul := div_lt_pages.mp (Nat.lt_succ_self (l.count / Z.denseBlocksPerPage))
    exact Nat.le_trans hmul (Nat.mul_le_mul_right _ (Nat.le_max_right ..))

/-- Moving a dense block, by either way, writes the erased one and at most the element of the last. -/
theorem moveDenseBlock_apply (denseBlocks : Nat → DenseBlock α) (erase last d : Nat) (hd : d ≠ last) :
    moveDenseBlock move denseBlocks erase last d =
      Function.update denseBlocks erase (denseBlocks last) d := by
  cases move with
  | memcpy => rfl
  | moveConstruct movedFrom =>
    rw [moveDenseBlock, Function.update_of_ne hd]

/-- The element of the last dense block moves to the one that is erased. -/
theorem Represents.swapDenseBlock {rest : SparseArray Z α} {d : UInt32} (h : Represents l live)
    (hi : l.position i = some d.toNat) (hcount : l.count = rest.count + 1) (hd : d.toNat ≠ rest.count)
    (hlookup : rest.sparseBlocks.lookup = Function.update l.sparseBlocks.lookup i none)
    (hdense : rest.denseBlocks = l.denseBlocks) (hpages : rest.densePageCount = l.densePageCount) :
    ∃ l', rest.swapDenseBlock move d = some l' ∧ Represents l' (Function.update live i none) := by
  have hpacked := h.packed
  have hle := h.pages
  rw [hcount] at hpacked hle
  have hlt := hpacked.lt hi
  -- The last dense block has another live index `j`, so the check on `lastSparseBlock` passes.
  set j := (l.denseBlocks rest.count).sparseIndex with hj
  have hlast : l.position j = some rest.count := hpacked.position_cells (Nat.lt_succ_self _)
  have hji : j ≠ i := hpacked.last_ne hi hd
  obtain ⟨last, hlook, hlastEq⟩ := Option.map_eq_some_iff.mp hlast
  have hlook' : rest.sparseBlocks.lookup j = some last := by
    rw [hlookup, Function.update_of_ne hji, hlook]
  have hread : rest.denseBlock rest.count = some (l.denseBlocks rest.count) := by
    rw [denseBlock_of_lt (by rw [hpages]; omega), hdense]
  set l' : SparseArray Z α :=
    { rest with
      sparseBlocks := rest.sparseBlocks.setData j.toNat d
      denseBlocks := moveDenseBlock move rest.denseBlocks (Z.densePosition d.toNat)
        (Z.densePosition rest.count) } with hl'
  have heq : rest.swapDenseBlock move d = some l' := by
    rw [SparseArray.swapDenseBlock, hread, Option.bind_some,
      (IndexedUnmanagedList.get_of_lookup hlook').1, Option.map_some]
  have hblocks : ∀ e, e ≠ rest.count → l'.denseBlocks e =
      Function.update l.denseBlocks d.toNat (l.denseBlocks rest.count) e := by
    intro e he
    rw [hl', densePosition_eq, densePosition_eq, ← hdense]
    exact moveDenseBlock_apply rest.denseBlocks d.toNat rest.count e he
  have hposition : l'.position =
      Function.update (Function.update l.position i none) j (some d.toNat) := by
    rw [position, hl', IndexedUnmanagedList.setData_lookup hlook', hlookup, Function.comp_update,
      Function.comp_update]
    rfl
  have hpacked' := hpacked.swapPop hi hd
  refine ⟨l', heq, ?_, fun k => ?_, ?_⟩
  · rw [hposition]
    refine hpacked'.congr fun e he => ?_
    rw [hblocks e (Nat.ne_of_lt he)]
    by_cases hed : e = d.toNat
    · rw [hed, Function.update_self, Function.update_self]
    · rw [Function.update_of_ne hed, Function.update_of_ne hed]
  · rw [hposition]
    by_cases hkj : k = j
    · rw [hkj, Function.update_self, Function.update_of_ne hji, Option.map_some, h.value j, hlast,
        Option.map_some, hblocks _ hd, Function.update_self]
    · rw [Function.update_of_ne hkj]
      by_cases hki : k = i
      · rw [hki, Function.update_self, Function.update_self]
        rfl
      · rw [Function.update_of_ne hki, Function.update_of_ne hki, h.value k]
        refine Option.map_congr fun e he => ?_
        have hne : e ≠ rest.count := by
          rintro rfl
          exact hkj (hpacked.cells_eq he).symm
        have hed : e ≠ d.toNat := by
          rintro rfl
          exact hki ((hpacked.cells_eq he).symm.trans (hpacked.cells_eq hi))
        rw [hblocks e hne, Function.update_of_ne hed]
  · change rest.count ≤ rest.densePageCount * _
    rw [hpages]
    omega

/-- `EraseBySparseIndex` of a live index. -/
theorem Represents.eraseBySparseIndex (h : Represents l live) (move : Move α)
    (hi : live i = some a) :
    ∃ l', l.eraseBySparseIndex move i = some l' ∧ Represents l' (Function.update live i none) := by
  obtain ⟨d, hlook, hposition, hpos, -⟩ := h.exists_lookup hi
  obtain ⟨hget, hdata⟩ := IndexedUnmanagedList.get_of_lookup hlook
  set rest : SparseArray Z α := { l with
    sparseBlocks := (l.sparseBlocks.setData i.toNat nullIndex).erase i
    count := l.count - 1 } with hrest
  have hcount : l.count = rest.count + 1 := by
    change l.count = l.count - 1 + 1
    omega
  have hlookup : rest.sparseBlocks.lookup = Function.update l.sparseBlocks.lookup i none := by
    rw [hrest, IndexedUnmanagedList.erase_lookup, IndexedUnmanagedList.setData_lookup hlook,
      Function.update_idem]
  have heq : l.eraseBySparseIndex move i =
      if d.toNat = rest.count then some rest else rest.swapDenseBlock move d := by
    rw [SparseArray.eraseBySparseIndex, hget, Option.bind_some, hdata]
    dsimp only
    rw [denseBlock_of_lt (Nat.lt_of_lt_of_le hpos h.pages), Option.bind_some]
  rw [heq]
  split_ifs with hlast
  · have hposition' : rest.position = Function.update l.position i none := by
      rw [position, hlookup, Function.comp_update]
      rfl
    refine ⟨rest, rfl, ?_, fun k => ?_, ?_⟩
    · have hpacked := h.packed
      rw [hcount] at hpacked
      rw [hposition']
      exact hpacked.pop (hposition.trans (congrArg some hlast))
    · rw [hposition']
      by_cases hki : k = i
      · rw [hki, Function.update_self, Function.update_self]
        rfl
      · rw [Function.update_of_ne hki, Function.update_of_ne hki]
        exact h.value k
    · have hle := h.pages
      change l.count - 1 ≤ l.densePageCount * _
      omega
  · exact h.swapDenseBlock hposition hcount hlast hlookup rfl rfl

/-! ## The indices -/

/-- The slots of `sparseBlocks_`: the nodes below `used` have been taken before, and behind those of
them that are free the free list has the others in order. -/
structure InOrder (l : SparseArray Z α) (used : Nat) (freed alloc : List Nat) : Prop where
  chains : ∃ pf rest, Chains l.sparseBlocks pf none (freed ++ List.range' used rest) alloc
  mem_iff : ∀ n, n ∈ freed ∨ n ∈ alloc ↔ n < used
  used_bound : used ≤ 2 ^ 32
  length : alloc.length = l.count

variable {used : Nat} {freed alloc : List Nat}

/-- If no node that has been taken is free, all of them are allocated. -/
theorem InOrder.used_le (h : InOrder l used [] alloc) : used ≤ l.count := by
  have hsubset : List.range used ⊆ alloc := by
    intro n hn
    exact ((h.mem_iff n).mpr (List.mem_range.mp hn)).resolve_left List.not_mem_nil
  have hlength := (List.nodup_range.subperm hsubset).length_le
  rw [List.length_range, h.length] at hlength
  exact hlength

theorem inOrder_empty (rawDense : Nat → DenseBlock α) (rawSparse : Memory UInt32) :
    InOrder (empty Z rawDense rawSparse) 0 [] [] where
  chains := ⟨none, 0, IndexedUnmanagedList.chains_empty _ rawSparse⟩
  mem_iff n := by simp
  used_bound := Nat.zero_le _
  length := rfl

/-- The node that `Create` takes: the first that is freed, or the first that has never been used. -/
theorem InOrder.nextFree_eq (h : InOrder l used freed alloc) :
    l.sparseBlocks.nextFree = freed.headD used := by
  obtain ⟨pf, rest, hch⟩ := h.chains
  have hhead := hch.free_linked.head_eq
  rw [IndexedUnmanagedList.nextFree, hhead]
  cases freed with
  | cons f fs => rfl
  | nil =>
    cases rest with
    | succ rest => rfl
    | zero =>
      -- All pages are full.
      change l.sparseBlocks.nodeCount = used
      have hiff : ∀ n, n < l.sparseBlocks.nodeCount ↔ n < used := fun n => by
        rw [← hch.mem_iff n, ← h.mem_iff n]
        rfl
      have h1 := hiff l.sparseBlocks.nodeCount
      have h2 := hiff used
      omega

/-- The free list that `Create` leaves behind a node that has never been used. -/
theorem InOrder.create_shape (h : InOrder l used [] alloc) {pf : Option Nat} {rest n : Nat}
    {free' : List Nat} (hch : Chains l.sparseBlocks pf none (List.range' used rest) alloc)
    (hshape : n :: free' = List.range' used rest ∨
      List.range' used rest = [] ∧ n :: free' = l.sparseBlocks.newPage) :
    n = used ∧ ∃ rest', free' = List.range' (used + 1) rest' := by
  have hcons : ∀ k, n :: free' = List.range' used k → n = used ∧ ∃ k', free' = List.range' (used + 1) k' := by
    intro k hk
    cases k with
    | zero => cases hk
    | succ k =>
      rw [List.range'_succ] at hk
      exact ⟨(List.cons.inj hk).1, k, (List.cons.inj hk).2⟩
  rcases hshape with hshape | ⟨hempty, hshape⟩
  · exact hcons rest hshape
  · have hnext := h.nextFree_eq
    have hnone : l.sparseBlocks.freeHead = none := by
      rw [hch.free_linked.head_eq, hempty]
      rfl
    rw [IndexedUnmanagedList.nextFree, hnone] at hnext
    rw [newPage, show l.sparseBlocks.nodeCount = used from hnext] at hshape
    exact hcons _ hshape

/-- `Emplace` finds a free node as long as there are fewer than 2³² elements. -/
theorem InOrder.emplace (hN : Z.sparse.nodesPerPage ≤ 2 ^ 31) (h : InOrder l used freed alloc)
    (hr : Represents l live) (hcount : l.count < 2 ^ 32) (a : α) :
    ∃ l' i, l.emplace a = some (l', i) ∧ live i = none ∧ l'.count = l.count + 1 ∧
      Represents l' (Function.update live i (some a)) ∧
      ∃ used freed alloc, InOrder l' used freed alloc := by
  obtain ⟨pf, rest, hch⟩ := h.chains
  have hlt : l.sparseBlocks.nextFree < 2 ^ 32 := by
    rw [h.nextFree_eq]
    cases freed with
    | nil => exact Nat.lt_of_le_of_lt h.used_le hcount
    | cons f fs =>
      have hf := (h.mem_iff f).mp (Or.inl (List.mem_cons_self ..))
      exact Nat.lt_of_lt_of_le hf h.used_bound
  obtain ⟨sparseBlocks, free', i, block, hcreate, hch', hnone, hlookup, hshape⟩ :=
    hch.create_lookup hN hlt
  have hi := hr.lookup_eq_none_iff.mp hnone
  obtain ⟨l', heq, hcount', hblocks, hr'⟩ := hr.emplace hi hcreate hlookup a
  refine ⟨l', i, heq, hi, hcount', hr', ?_⟩
  have hchains : Chains l'.sparseBlocks none none free' (i.toNat :: alloc) := by
    rw [hblocks]
    exact IndexedUnmanagedList.Chains.setData hch' _ _
  have hlength : (i.toNat :: alloc).length = l'.count := by
    rw [List.length_cons, h.length, hcount']
  cases freed with
  | cons f fs =>
    have hcons : i.toNat :: free' = f :: (fs ++ List.range' used rest) := by
      rcases hshape with hshape | ⟨hempty, -⟩
      · exact hshape
      · cases hempty
    obtain ⟨hf, rfl⟩ := List.cons.inj hcons
    refine ⟨used, fs, i.toNat :: alloc, ⟨none, rest, hchains⟩, fun n => ?_, h.used_bound, hlength⟩
    rw [← h.mem_iff n, hf]
    simp only [List.mem_cons]
    tauto
  | nil =>
    obtain ⟨hn, rest', rfl⟩ := h.create_shape hch hshape
    have hused := h.used_le
    refine ⟨used + 1, [], i.toNat :: alloc, ⟨none, rest', hchains⟩, fun n => ?_, by omega, hlength⟩
    have hmem := h.mem_iff n
    simp only [List.not_mem_nil, false_or] at hmem
    simp only [List.not_mem_nil, false_or, List.mem_cons, hmem, hn]
    omega

/-- `EraseBySparseIndex` frees its slot and writes dense indices. -/
theorem eraseBySparseIndex_inOrder (h : InOrder l used freed alloc)
    (hmem : i.toNat ∈ alloc) (heq : l.eraseBySparseIndex move i = some l') :
    l'.count = l.count - 1 ∧ ∃ used freed alloc, InOrder l' used freed alloc := by
  obtain ⟨pf, rest, hch⟩ := h.chains
  obtain ⟨block, hget, heq⟩ := Option.bind_eq_some_iff.mp heq
  have hnull := IndexedUnmanagedList.Chains.setData hch block nullIndex
  have herased := IndexedUnmanagedList.erase_eq hnull i
  rw [if_pos hmem] at herased
  obtain ⟨as, bs, rfl⟩ := List.append_of_mem hmem
  have hfree := hnull.freeNode fun _ => rfl
  rw [← herased] at hfree
  have hcount : (as ++ bs).length = l.count - 1 := by
    rw [← h.length, List.length_append, List.length_append, List.length_cons]
    omega
  have hmem' : ∀ n, n ∈ i.toNat :: freed ∨ n ∈ as ++ bs ↔ n < used := by
    intro n
    rw [← h.mem_iff n]
    simp only [List.mem_cons, List.mem_append]
    tauto
  obtain ⟨-, -, heq⟩ := Option.bind_eq_some_iff.mp heq
  dsimp only at heq
  split_ifs at heq with hlast
  · cases heq
    exact ⟨rfl, used, i.toNat :: freed, as ++ bs, ⟨_, rest, hfree⟩, hmem', h.used_bound, hcount⟩
  · obtain ⟨lastBlock, -, heq⟩ := Option.bind_eq_some_iff.mp heq
    obtain ⟨lastSparse, -, rfl⟩ := Option.map_eq_some_iff.mp heq
    exact ⟨rfl, used, i.toNat :: freed, as ++ bs,
      ⟨_, rest, IndexedUnmanagedList.Chains.setData hfree _ _⟩, hmem', h.used_bound, hcount⟩

/-! ## Runs -/

/-- What the array promises for the map: `Get` finds the live elements; the sparse block of each live
index has the position of the dense block with this index; `count_` is the number of live indices;
`EraseBySparseIndex` of a live index passes its checks; iterating yields each live index with its
element exactly once. -/
structure Refines (move : Move α) (w : World Z α) : Prop where
  get : ∀ i, w.array.get i = some (w.live i)
  position : ∀ i, (w.live i).isSome → ∃ d, w.array.sparseBlocks.lookup i = some d ∧
    d.toNat < w.array.count ∧
    (w.array.denseBlock d.toNat).map DenseBlock.sparseIndex = some i
  count : ∃ indices : List UInt32, indices.Nodup ∧ indices.length = w.array.count ∧
    ∀ i, i ∈ indices ↔ (w.live i).isSome
  erase : ∀ i, (w.live i).isSome → (w.array.eraseBySparseIndex move i).isSome
  iterate : ∃ fuel pairs, w.array.iterate fuel = some pairs ∧ (pairs.map Prod.fst).Nodup ∧
    ∀ i a, (i, a) ∈ pairs ↔ w.live i = some a

/-- The calls that the array allows: fewer than 2³² - 1 elements, and `EraseBySparseIndex` of a live
index. -/
def Allowed (w : World Z α) : Op α → Prop
  | .emplace _ => w.array.count + 1 < 2 ^ 32 - 1
  | .eraseBySparseIndex sparseIndex => (w.live sparseIndex).isSome

theorem Allowed.count_lt {w : World Z α} (h : Allowed w (.emplace a)) : w.array.count < 2 ^ 32 := by
  unfold Allowed at h
  omega

theorem Represents.refines {w : World Z α} (h : Represents w.array w.live)
    (hcount : w.array.count < 2 ^ 32) : Refines move w := by
  have hread : ∀ d < w.array.count, w.array.denseBlock d = some (w.array.denseBlocks d) := fun d hd =>
    denseBlock_of_lt (Nat.lt_of_lt_of_le hd h.pages)
  refine ⟨fun i => ?_, fun i hi => ?_, ?_, fun i hi => ?_, ?_⟩
  · cases hi : w.live i with
    | none =>
      have hnone := IndexedUnmanagedList.get_eq_none_iff.mpr (h.lookup_eq_none_iff.mpr hi)
      rw [get, hnone]
    | some a =>
      obtain ⟨d, hlook, -, hlt, -, hdata⟩ := h.exists_lookup hi
      obtain ⟨hget, hd⟩ := IndexedUnmanagedList.get_of_lookup hlook
      rw [get, hget]
      dsimp only
      rw [hd, hread _ hlt, Option.map_some, hdata]
  · obtain ⟨a, ha⟩ := Option.isSome_iff_exists.mp hi
    obtain ⟨d, hlook, -, hlt, hindex, -⟩ := h.exists_lookup ha
    refine ⟨d, hlook, hlt, ?_⟩
    rw [hread _ hlt, Option.map_some, hindex]
  · refine ⟨_, h.packed.nodup, ?_, fun i => ?_⟩
    · rw [List.length_map, List.length_range]
    · rw [h.packed.mem_iff, h.isSome]
  · obtain ⟨a, ha⟩ := Option.isSome_iff_exists.mp hi
    obtain ⟨l', heq, -⟩ := h.eraseBySparseIndex move ha
    rw [heq]
    rfl
  · refine MakeIterableFromThis.iterate_packed h.packed hcount (fun i => h.isSome) ?_
    intro d hd
    refine ⟨(w.array.denseBlocks d.toNat).data, ?_, ?_⟩
    · rw [getPairOfSparseIndexAndDataByDenseIndex, hread _ hd, Option.map_some]
    · rw [h.value, h.packed.position_cells hd, Option.map_some]

/-- What every step keeps. -/
structure Sound (w : World Z α) : Prop where
  represents : Represents w.array w.live
  inOrder : ∃ used freed alloc, InOrder w.array used freed alloc
  count_lt : w.array.count < 2 ^ 32 - 1

/-- Each allowed step goes through and keeps the array sound. -/
theorem Sound.step (hN : Z.sparse.nodesPerPage ≤ 2 ^ 31) {w : World Z α} {op : Op α} (h : Sound w)
    (hallowed : Allowed w op) : ∃ w', SparseArray.step move w op = some w' ∧ Sound w' := by
  obtain ⟨used, freed, alloc, horder⟩ := h.inOrder
  cases op with
  | emplace a =>
    obtain ⟨l, i, heq, -, hcount, hr, horder'⟩ := horder.emplace hN h.represents hallowed.count_lt a
    refine ⟨⟨l, Function.update w.live i (some a)⟩, ?_, hr, horder', ?_⟩
    · rw [SparseArray.step, heq]
      rfl
    · rw [Allowed, ← hcount] at hallowed
      exact hallowed
  | eraseBySparseIndex i =>
    obtain ⟨a, ha⟩ := Option.isSome_iff_exists.mp hallowed
    obtain ⟨l, heq, hr⟩ := h.represents.eraseBySparseIndex move ha
    have hmem : i.toNat ∈ alloc := by
      obtain ⟨pf, rest, hch⟩ := horder.chains
      obtain ⟨d, hlook, -⟩ := h.represents.exists_lookup ha
      rw [← hch.lookup_isSome, hlook]
      rfl
    obtain ⟨hcount, horder'⟩ := eraseBySparseIndex_inOrder horder hmem heq
    refine ⟨⟨l, Function.update w.live i none⟩, ?_, hr, horder', ?_⟩
    · rw [SparseArray.step, heq]
      rfl
    · have hlt := h.count_lt
      change l.count < _
      omega

/-- A new array and the empty map. -/
def fresh (Z : SparseArraySizes) (rawDense : Nat → DenseBlock α) (rawSparse : Memory UInt32) :
    World Z α :=
  ⟨empty Z rawDense rawSparse, fun _ => none⟩

/-- **`SparseArray` refines a map.** For pages of at most 2³¹ sparse blocks, every run of allowed calls
goes through, whichever way the elements are moved; at its end the array keeps its promises, and
`Emplace` returns an index that is not live. -/
theorem refines_of_nodesPerPage_le (hN : Z.sparse.nodesPerPage ≤ 2 ^ 31) (move : Move α)
    (rawDense : Nat → DenseBlock α) (rawSparse : Memory UInt32) (ops : List (Op α))
    (hok : Meets (step move) Allowed (fresh Z rawDense rawSparse) ops) :
    ∃ w, run (step move) (fresh Z rawDense rawSparse) ops = some w ∧ Refines move w ∧
      ∀ a, Allowed w (.emplace a) → ∃ l i, w.array.emplace a = some (l, i) ∧ w.live i = none := by
  have hfresh : Sound (fresh Z rawDense rawSparse) := by
    refine ⟨represents_empty rawDense rawSparse, ⟨0, [], [], inOrder_empty rawDense rawSparse⟩, ?_⟩
    exact Nat.sub_pos_of_lt (Nat.one_lt_two_pow (by decide))
  obtain ⟨w, hrun, hsound⟩ := run_total (P := Sound) (fun w op h hop => h.step hN hop) hfresh hok
  have hlt := hsound.count_lt
  refine ⟨w, hrun, hsound.represents.refines (by omega), fun a hcount => ?_⟩
  obtain ⟨used, freed, alloc, horder⟩ := hsound.inOrder
  obtain ⟨l, i, heq, hnone, -⟩ := horder.emplace hN hsound.represents hcount.count_lt a
  exact ⟨l, i, heq, hnone⟩

instance (w : World Z α) (op : Op α) : Decidable (Allowed w op) :=
  match op with
  | .emplace _ => inferInstanceAs (Decidable (_ < _))
  | .eraseBySparseIndex _ => inferInstanceAs (Decidable (_ = true))

/-- Pages of two dense blocks with a four-byte element, and of three sparse blocks. -/
theorem holdsSparseBlock_twoBlockPages : nodeMetadataSize + 4 ≤ 75 := by decide

def twoBlockPages : SparseArraySizes := ⟨16, 4, 75, by decide, holdsSparseBlock_twoBlockPages⟩

theorem refines_of_nodesPerPage_le_twoBlockPages : ∃ w,
    run (step .memcpy) (fresh twoBlockPages (fun _ => ⟨0, 0⟩) fun _ => ⟨0, false, none, none, 0⟩)
      [.emplace 10, .emplace (11 : UInt32), .emplace 12, .eraseBySparseIndex 0, .emplace 13] =
        some w ∧ Refines .memcpy w := by
  obtain ⟨w, hrun, hrefines, -⟩ := refines_of_nodesPerPage_le (Z := twoBlockPages) (by decide) .memcpy
    (fun _ => ⟨0, 0⟩) (fun _ => ⟨0, false, none, none, 0⟩)
    [.emplace 10, .emplace (11 : UInt32), .emplace 12, .eraseBySparseIndex 0, .emplace 13] (by decide)
  exact ⟨w, hrun, hrefines⟩

/-- Sparse pages of 2³¹ + 1 blocks. -/
def hugePages : SparseArraySizes := ⟨8, 4, (2 ^ 31 + 1) * 25, by decide, by decide⟩

/-- In pages of 2³¹ + 1 sparse blocks the loop of `ExtendPage` does not run, and the first `Emplace`
dereferences a null pointer. -/
theorem emplace_hugePages : Meets (step .memcpy)
    Allowed (fresh hugePages (fun _ => ⟨0, 0⟩) fun _ => ⟨0, false, none, none, 0⟩)
      [.emplace (10 : UInt32)] ∧
    run (step .memcpy) (fresh hugePages (fun _ => ⟨0, 0⟩) fun _ => ⟨0, false, none, none, 0⟩)
      [.emplace (10 : UInt32)] = none := by
  decide

end RatkiniaServer.MemoryPool.SparseArray
