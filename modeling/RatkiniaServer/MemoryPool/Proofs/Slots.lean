import RatkiniaServer.MemoryPool.Proofs.ListOps

/-!
# The slots of `IndexedUnmanagedList`

What `CreateAt`, `Erase` and `Get` do to the allocated slots and their payloads rests on the flags
alone: it holds whatever the `Next` and `Prev` pointers are, even where the two lists are broken.
`Create` rests on the free list.
-/

namespace RatkiniaServer.MemoryPool

universe u

variable {δ : Type u} {L : Layout}

namespace IndexedUnmanagedList

/-- The payload of an allocated slot. -/
def lookup (l : IndexedUnmanagedList L δ) (index : UInt32) : Option δ :=
  (l.get index).map fun n => (l.mem n).data

variable {l l' : IndexedUnmanagedList L δ} {index i : UInt32} {n : Nat}

theorem lookup_eq : l.lookup index =
    if index.toNat < l.nodeCount ∧ (l.mem index.toNat).allocated then
      some (l.mem index.toNat).data
    else none := by
  rw [lookup, get_eq]
  split_ifs <;> rfl

theorem isSome_lookup : (l.lookup index).isSome = (l.get index).isSome := by
  rw [lookup, Option.isSome_map]

theorem get_eq_none_iff : l.get index = none ↔ l.lookup index = none := by
  rw [lookup, Option.map_eq_none_iff]

/-- `Get` addresses the node at the position of the index. -/
theorem get_of_lookup {d : δ} (h : l.lookup index = some d) :
    l.get index = some index.toNat ∧ (l.mem index.toNat).data = d := by
  rw [lookup_eq] at h
  split_ifs at h with hlive
  rw [get_eq, if_pos hlive]
  exact ⟨rfl, Option.some.inj h⟩

theorem lookup_empty (init : UInt32 → δ → δ) (raw : Memory δ) :
    (empty L init raw).lookup index = none := by
  rw [lookup_eq, if_neg]
  rintro ⟨hlt, -⟩
  rw [nodeCount, show (empty L init raw).pageCount = 0 from rfl, Nat.zero_mul] at hlt
  exact Nat.not_lt_zero _ hlt

/-- A step that writes the flag and the payload of one slot. -/
theorem lookup_update {ix : UInt32} {b : Bool} {d : δ} (hcount : l'.nodeCount = l.nodeCount)
    (hlt : index.toNat < l.nodeCount)
    (hslot : ∀ k, l'.mem.slot k = if k = index.toNat then (ix, b, d) else l.mem.slot k) :
    l'.lookup = Function.update l.lookup index (if b then some d else none) := by
  funext j
  have hj := hslot j.toNat
  by_cases heq : j = index
  · subst heq
    rw [if_pos rfl] at hj
    rw [Function.update_self, lookup_eq, hcount, Memory.allocated_eq_slot, Memory.data_eq_slot, hj]
    simp only [hlt, true_and]
  · rw [if_neg fun hnat => heq (UInt32.toNat_inj.mp hnat)] at hj
    rw [Function.update_of_ne heq, lookup_eq, lookup_eq, hcount, Memory.allocated_eq_slot,
      Memory.data_eq_slot, hj]
    rfl

/-- New pages have no allocated slots. -/
theorem Extends.lookup (h : Extends l l') : l'.lookup index = l.lookup index := by
  by_cases hold : index.toNat < l.nodeCount
  · have hnew : index.toNat < l'.nodeCount := Nat.lt_of_lt_of_le hold h.count_le
    have hslot := h.old _ hold
    rw [lookup_eq, lookup_eq, Memory.allocated_eq_slot, Memory.data_eq_slot, hslot]
    simp only [hold, hnew, true_and]
    rfl
  · rw [lookup_eq, lookup_eq, if_neg (c := index.toNat < l.nodeCount ∧ _) fun hh => hold hh.1]
    refine if_neg fun ⟨hlt, hallocated⟩ => ?_
    obtain ⟨d, hd⟩ := h.new _ (Nat.not_lt.mp hold) hlt
    rw [Memory.allocated_eq_slot, hd] at hallocated
    cases hallocated

/-- One round of the loop of `CreateAt`. -/
theorem prependPage_extends (hN : L.nodesPerPage ≤ 2 ^ 31) (l : IndexedUnmanagedList L δ) :
    ∃ l', l.prependPage = some l' ∧ l'.pageCount = l.pageCount + 1 ∧ Extends l l' := by
  obtain ⟨m, head, heq, -, hsame, hnew⟩ := extendPage_spec hN l
  set y := l.nodeCount + L.nodesPerPage - 1
  set l' : IndexedUnmanagedList L δ := { l with
    pageCount := l.pageCount + 1
    mem := (m.setNext y l.freeHead).setPrevAt l.freeHead (some y)
    freeHead := head } with hl'
  refine ⟨l', by rw [prependPage, heq], rfl, rfl, rfl, ?_, fun n hn => ?_, fun n hn hn' => ?_⟩
  · rw [hl', nodeCount_succ]
    exact Nat.le_add_right ..
  · rw [hl', Memory.slot_setPrevAt, Memory.slot_setNext, Memory.slot, hsame n hn]
    rfl
  · rw [hl', nodeCount_succ] at hn'
    rw [hl', Memory.slot_setPrevAt, Memory.slot_setNext]
    exact hnew n hn hn'

/-- The loop of `CreateAt`. -/
theorem prependPages_extends (hN : L.nodesPerPage ≤ 2 ^ 31) (k : Nat) (l : IndexedUnmanagedList L δ) :
    ∃ l', prependPages k l = some l' ∧ l'.pageCount = l.pageCount + k ∧ Extends l l' := by
  induction k generalizing l with
  | zero => exact ⟨l, rfl, rfl, Extends.refl l⟩
  | succ k ih =>
    obtain ⟨l1, heq1, hcount1, hext1⟩ := prependPage_extends hN l
    obtain ⟨l2, heq2, hcount2, hext2⟩ := ih l1
    refine ⟨l2, ?_, by omega, hext1.trans hext2⟩
    rw [prependPages, heq1]
    exact heq2

/-- `CreateAt` on a slot that is free allocates it and leaves all other slots alone. -/
theorem createAt_lookup (hN : L.nodesPerPage ≤ 2 ^ 31) (hi : l.lookup index = none) :
    ∃ l' d, l.createAt index = some (l', some index.toNat) ∧
      l'.lookup = Function.update l.lookup index (some d) := by
  obtain ⟨e, heq, hcount, hext⟩ :=
    prependPages_extends hN (index.toNat / L.nodesPerPage + 1 - l.pageCount) l
  have hlt : index.toNat < e.nodeCount := by
    rw [lt_nodeCount_iff]
    omega
  have hfree : (e.mem index.toNat).allocated = false := by
    have hnone := hext.lookup.trans hi
    rw [lookup_eq] at hnone
    by_contra hallocated
    rw [if_pos ⟨hlt, by simpa using hallocated⟩] at hnone
    cases hnone
  refine ⟨e.allocateNode index.toNat, (e.mem index.toNat).data, ?_, ?_⟩
  · rw [createAt, heq, Option.map_some, position_eq]
    simp only [hfree, Bool.false_eq_true, if_false]
  · have hsame : e.lookup = l.lookup := funext fun j => hext.lookup
    rw [← hsame]
    exact lookup_update (show (e.allocateNode index.toNat).nodeCount = e.nodeCount from rfl) hlt
      (slot_move e.mem e.freeHead e.allocatedHead index.toNat true)

/-- `Erase` frees the slot and leaves all other slots alone. -/
theorem erase_lookup (l : IndexedUnmanagedList L δ) (index : UInt32) :
    (l.erase index).lookup = Function.update l.lookup index none := by
  have hiff := lt_nodeCount_iff (l := l) index
  have hgone : l.lookup index = none →
      l.lookup = Function.update l.lookup index none := fun hnone => by
    rw [← hnone, Function.update_eq_self]
  simp only [erase, position_eq]
  split_ifs with hpage hflag
  · refine hgone ?_
    rw [lookup_eq, if_neg fun hlive => Nat.not_lt.mpr hpage (hiff.mp hlive.1)]
  · refine hgone ?_
    rw [lookup_eq, if_neg fun hlive => ?_]
    rw [hlive.2] at hflag
    cases hflag
  · have hlt : index.toNat < l.nodeCount := hiff.mpr (by omega)
    exact lookup_update (show (l.freeNode index.toNat).nodeCount = l.nodeCount from rfl) hlt
      (slot_move l.mem l.allocatedHead l.freeHead index.toNat false)

/-- Writing the payload of an allocated slot. -/
theorem setData_lookup {d d' : δ} (hi : l.lookup index = some d') :
    (l.setData index.toNat d).lookup = Function.update l.lookup index (some d) := by
  rw [lookup_eq] at hi
  split_ifs at hi with hlive
  have hupdate := lookup_update
    (show (l.setData index.toNat d).nodeCount = l.nodeCount from rfl) hlive.1
    fun k => Memory.slot_setData l.mem index.toNat k d
  rwa [hlive.2] at hupdate

/-! ## With sound lists -/

variable {pf pa : Option Nat} {free alloc : List Nat}

theorem Chains.lookup_isSome (h : Chains l pf pa free alloc) (index : UInt32) :
    (l.lookup index).isSome ↔ index.toNat ∈ alloc := by
  rw [isSome_lookup, h.get_isSome]

/-- `Create` allocates a slot that was free and leaves all other slots alone, as long as a 32-bit
index can address the node it takes. -/
theorem Chains.create_lookup (hN : L.nodesPerPage ≤ 2 ^ 31) (h : Chains l pf pa free alloc)
    (hn : l.nextFree < 2 ^ 32) :
    ∃ l' free' index d, l.create = some (l', index, index.toNat) ∧
      Chains l' none none free' (index.toNat :: alloc) ∧ l.lookup index = none ∧
      l'.lookup = Function.update l.lookup index (some d) ∧
      (index.toNat :: free' = free ∨ free = [] ∧ index.toNat :: free' = l.newPage) := by
  obtain ⟨l', free', heq, hch, hnew, hext, hdata, hshape⟩ := create_spec hN h
  obtain ⟨index, hindex⟩ : ∃ index : UInt32, index.toNat = l.nextFree :=
    ⟨UInt32.ofNat l.nextFree, UInt32.toNat_ofNat_of_lt' hn⟩
  rw [← hindex, UInt32.ofNat_toNat] at heq
  rw [← hindex] at hch hnew hshape
  have hnone : l.lookup index = none := by
    rw [← Option.not_isSome_iff_eq_none, h.lookup_isSome]
    exact hnew
  obtain ⟨d, hd⟩ := Option.isSome_iff_exists.mp
    ((hch.lookup_isSome index).mpr (List.mem_cons_self ..))
  refine ⟨l', free', index, d, heq, hch, hnone, funext fun j => ?_, hshape⟩
  by_cases hj : j = index
  · rw [hj, Function.update_self, hd]
  · rw [Function.update_of_ne hj]
    have hne : j.toNat ≠ index.toNat := fun hnat => hj (UInt32.toNat_inj.mp hnat)
    have hiff : (l'.lookup j).isSome ↔ (l.lookup j).isSome := by
      rw [hch.lookup_isSome, h.lookup_isSome, List.mem_cons]
      exact or_iff_right hne
    cases hlj : l.lookup j with
    | none =>
      rw [← Option.not_isSome_iff_eq_none, hiff, hlj]
      exact Bool.false_ne_true
    | some dj =>
      obtain ⟨dj', hlj'⟩ := Option.isSome_iff_exists.mp (hiff.mpr (by rw [hlj]; rfl))
      have hmem : j.toNat ∈ alloc := (h.lookup_isSome j).mp (by rw [hlj]; rfl)
      have hsame := data_eq_of_extends h hext hdata hmem
      rw [hlj', ← (get_of_lookup hlj).2, ← (get_of_lookup hlj').2, hsame]

/-- `CreateAt` keeps the lists apart, unless it takes the head of the free list with a stale back
pointer. -/
theorem Chains.createAt (hN : L.nodesPerPage ≤ 2 ^ 31) (h : Chains l pf pa free alloc)
    (hi : l.lookup index = none)
    (hhead : l.freeHead = some index.toNat → l.mem.prev index.toNat = none) :
    ∃ l' pf' pa' free' alloc', l.createAt index = some (l', some index.toNat) ∧
      Chains l' pf' pa' free' alloc' := by
  have hnot : index.toNat ∉ alloc := by
    rw [← h.lookup_isSome, hi]
    exact Bool.false_ne_true
  obtain ⟨e, pf', free', heq, hche, -, hfree, hold, hnew⟩ := createAt_of_not_mem hN h hnot
  obtain ⟨as, bs, rfl⟩ := List.append_of_mem hfree
  have hpf : as = [] → pf' = none := by
    rintro rfl
    by_cases hcount : index.toNat < l.nodeCount
    · obtain ⟨rfl, rfl, -⟩ := hold hcount
      obtain ⟨hfirst, hprev, -⟩ := hche.free_linked
      exact hprev.symm.trans (hhead hfirst)
    · exact (hnew (Nat.not_lt.mp hcount)).1
  exact ⟨_, _, _, _, _, heq, hche.allocateNode hpf⟩

/-- `Erase` keeps the lists apart, unless it takes the head of the allocated list with a stale back
pointer. -/
theorem Chains.erase (h : Chains l pf pa free alloc)
    (hhead : l.allocatedHead = some index.toNat → l.mem.prev index.toNat = none) :
    ∃ pf' pa' free' alloc', Chains (l.erase index) pf' pa' free' alloc' := by
  rw [erase_eq h]
  split_ifs with hi
  · obtain ⟨as, bs, rfl⟩ := List.append_of_mem hi
    have hpa : as = [] → pa = none := by
      rintro rfl
      obtain ⟨hfirst, hprev, -⟩ := h.alloc_linked
      exact hprev.symm.trans (hhead hfirst)
    exact ⟨_, _, _, _, h.freeNode hpa⟩
  · exact ⟨_, _, _, _, h⟩

end IndexedUnmanagedList

end RatkiniaServer.MemoryPool
