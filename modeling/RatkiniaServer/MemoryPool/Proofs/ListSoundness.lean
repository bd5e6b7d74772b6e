import RatkiniaServer.MemoryPool.Proofs.ListOps

/-!
# Soundness of the two lists of `IndexedUnmanagedList`

The lists are sound after a run exactly if no step of it unlinks a node with a predecessor:
`CreateAt` and `Erase` push the node they move without resetting its `Prev`, which only `Create`
does. A node that comes from the inside of one list then heads the other with a back pointer into
the first one.
-/

namespace RatkiniaServer.MemoryPool

open LinkedList Transition

universe u

variable {δ : Type u} {L : Layout}

namespace IndexedUnmanagedList

/-- The soundness of the two lists: they are chains with null back pointers at their heads and divide
the nodes of all pages as the flags say, and iterating visits every allocated index exactly once. -/
def Sound (l : IndexedUnmanagedList L δ) : Prop :=
  (∃ free alloc, Chains l none none free alloc) ∧
  ∃ fuel es, l.iterate fuel = some es ∧ (es.map Prod.fst).Nodup ∧
    ∀ index, index ∈ es.map Prod.fst ↔ (l.get index).isSome

/-- The condition on a step: `Create` finds a node that a 32-bit index can address, `CreateAt` finds
its slot allocated or at the head of the free list (on a new page: the page's first slot), and
`Erase` finds its slot free or at the head of the allocated list. -/
def UnlinksHead (l : IndexedUnmanagedList L δ) : Op → Prop
  | .create => l.nextFree < 2 ^ 32
  | .createAt index => (l.get index).isSome ∨
      if index.toNat < l.nodeCount then (l.mem index.toNat).prev = none
      else index.toNat % L.nodesPerPage = 0
  | .erase index => (l.get index).isSome → (l.mem index.toNat).prev = none

variable {l l' : IndexedUnmanagedList L δ} {pf pa : Option Nat} {free alloc : List Nat}

theorem toNat_ofNat {n : Nat} (hn : n < 2 ^ 32) : (UInt32.ofNat n).toNat = n :=
  UInt32.toNat_ofNat_of_lt' hn

/-- Iterating is exact as long as all allocated nodes have an index of their own. -/
theorem sound_iff : Sound l ↔
    ∃ free alloc, Chains l none none free alloc ∧ ∀ n ∈ alloc, n < 2 ^ 32 := by
  constructor
  · rintro ⟨⟨free, alloc, h⟩, fuel, es, hit, hnd, hmem⟩
    refine ⟨free, alloc, h, fun n hn => ?_⟩
    by_contra hge
    have hes : es.map Prod.fst = alloc.map UInt32.ofNat := by
      rw [iterateFrom_unique h.alloc_linked hit, List.map_map]
      exact List.map_congr_left fun k hk => h.index_eq k (h.lt_of_alloc hk)
    -- The node that the truncated index addresses would be visited twice.
    have hget := (hmem (UInt32.ofNat n)).mp (by rw [hes]; exact List.mem_map_of_mem hn)
    have hmem' : (UInt32.ofNat n).toNat ∈ alloc := (h.get_isSome _).mp hget
    rw [hes] at hnd
    have heq := List.inj_on_of_nodup_map hnd hmem' hn (UInt32.ofNat_toNat ..)
    have hlt := UInt32.toNat_lt (UInt32.ofNat n)
    omega
  · rintro ⟨free, alloc, h, hlt⟩
    refine ⟨⟨free, alloc, h⟩, alloc.length, _, h.iterate le_rfl, ?_, fun index => ?_⟩
    · rw [List.map_map]
      refine List.Nodup.map_on (fun a ha b hb hab => ?_) h.alloc_linked.nodup
      rw [← toNat_ofNat (hlt a ha), ← toNat_ofNat (hlt b hb)]
      exact congrArg UInt32.toNat hab
    · rw [h.get_isSome, List.map_map]
      constructor
      · intro hi
        obtain ⟨n, hn, rfl⟩ := List.mem_map.mp hi
        simpa [toNat_ofNat (hlt n hn)] using hn
      · intro hi
        exact List.mem_map.mpr ⟨_, hi, UInt32.ofNat_toNat ..⟩

theorem sound_empty (init : UInt32 → δ → δ) (raw : Memory δ) : Sound (empty L init raw) :=
  sound_iff.mpr ⟨[], [], chains_empty init raw, by simp⟩

/-- The chains of a list are determined by its pointers, and with them the back pointers of nonempty
chains' heads. -/
theorem Chains.unique {pf' pa' : Option Nat} {free' alloc' : List Nat} (h : Chains l pf pa free alloc)
    (h' : Chains l pf' pa' free' alloc') : (free ≠ [] → pf = pf') ∧ (alloc ≠ [] → pa = pa') := by
  have hfree := h.free_linked.unique h'.free_linked
  have halloc := h.alloc_linked.unique h'.alloc_linked
  subst hfree halloc
  constructor
  · intro hne
    cases free with
    | nil => exact absurd rfl hne
    | cons x xs => exact h.free_linked.2.1.symm.trans h'.free_linked.2.1
  · intro hne
    cases alloc with
    | nil => exact absurd rfl hne
    | cons x xs => exact h.alloc_linked.2.1.symm.trans h'.alloc_linked.2.1

/-- `Create` keeps the lists sound as long as the indices last. -/
theorem sound_create (hN : L.nodesPerPage ≤ 2 ^ 31) (h : Sound l) :
    ∃ l', step l .create = some l' ∧ (Sound l' ↔ UnlinksHead l .create) := by
  obtain ⟨free, alloc, hch, hlt⟩ := sound_iff.mp h
  obtain ⟨l', free', heq, hch', -⟩ := create_spec hN hch
  refine ⟨l', by simp [step, heq], fun hs => ?_, fun hok => ?_⟩
  · obtain ⟨free2, alloc2, hch2, hlt2⟩ := sound_iff.mp hs
    have halloc := hch'.alloc_linked.unique hch2.alloc_linked
    exact hlt2 _ (halloc ▸ List.mem_cons_self ..)
  · refine sound_iff.mpr ⟨_, _, hch', fun n hn => ?_⟩
    rcases List.mem_cons.mp hn with rfl | hn
    · exact hok
    · exact hlt n hn

/-- `CreateAt` keeps the lists sound exactly if the node it takes heads the free list. -/
theorem sound_createAt (hN : L.nodesPerPage ≤ 2 ^ 31) (h : Sound l) (index : UInt32) :
    ∃ l', step l (.createAt index) = some l' ∧ (Sound l' ↔ UnlinksHead l (.createAt index)) := by
  obtain ⟨free, alloc, hch, hlt⟩ := sound_iff.mp h
  by_cases hi : index.toNat ∈ alloc
  · have hget := (hch.get_isSome index).mpr hi
    exact ⟨l, by simp [step, createAt_of_mem hch hi], fun _ => Or.inl hget, fun _ => h⟩
  · obtain ⟨e, pf', free', heq, hche, -, hfree, hold, hnew⟩ := createAt_of_not_mem hN hch hi
    refine ⟨e.allocateNode index.toNat, by simp [step, heq], ?_⟩
    have hpf : pf' = none := by
      by_cases hcount : index.toNat < l.nodeCount
      · exact (hold hcount).2.1
      · exact (hnew (by omega)).1
    subst hpf
    obtain ⟨as, bs, hsplit⟩ := List.append_of_mem hfree
    have hmove := (hsplit ▸ hche).allocateNode fun _ => rfl
    -- The new head of the allocated list keeps the back pointer it had on the free list.
    have hsound : Sound (e.allocateNode index.toNat) ↔ e.mem.prev index.toNat = none := by
      constructor
      · intro hs
        obtain ⟨free2, alloc2, hch2, -⟩ := sound_iff.mp hs
        exact (hmove.unique hch2).2 (by simp)
      · intro hp
        refine sound_iff.mpr ⟨_, _, hp ▸ hmove, fun n hn => ?_⟩
        rcases List.mem_cons.mp hn with rfl | hn
        · exact UInt32.toNat_lt index
        · exact hlt n hn
    have hget : ¬ (l.get index).isSome := fun hs => hi ((hch.get_isSome index).mp hs)
    have hcond : UnlinksHead l (.createAt index) ↔
        if index.toNat < l.nodeCount then (l.mem index.toNat).prev = none
        else index.toNat % L.nodesPerPage = 0 := by simp [UnlinksHead, hget]
    rw [hsound, hcond]
    by_cases hcount : index.toNat < l.nodeCount
    · rw [if_pos hcount, (hold hcount).1]
      rfl
    · rw [if_neg hcount, hche.free_linked.prev_eq_none_iff hfree, (hnew (by omega)).2,
        Option.some.injEq]
      have hdiv := Nat.div_add_mod' index.toNat L.nodesPerPage
      constructor <;> intro hh <;> omega

/-- `Erase` keeps the lists sound exactly if the node it returns heads the allocated list. -/
theorem sound_erase (h : Sound l) (index : UInt32) :
    ∃ l', step l (.erase index) = some l' ∧ (Sound l' ↔ UnlinksHead l (.erase index)) := by
  obtain ⟨free, alloc, hch, hlt⟩ := sound_iff.mp h
  refine ⟨_, rfl, ?_⟩
  simp only [UnlinksHead, hch.get_isSome]
  rw [erase_eq hch]
  by_cases hi : index.toNat ∈ alloc
  · obtain ⟨as, bs, rfl⟩ := List.append_of_mem hi
    have hmove := hch.freeNode fun _ => rfl
    rw [if_pos hi]
    constructor
    · intro hs _
      obtain ⟨free2, alloc2, hch2, -⟩ := sound_iff.mp hs
      exact (hmove.unique hch2).1 (by simp)
    · intro hok
      have hp : l.mem.prev index.toNat = none := hok hi
      refine sound_iff.mpr ⟨_, _, hp ▸ hmove, fun n hn => hlt n ?_⟩
      rcases List.mem_append.mp hn with h1 | h1 <;> simp [h1]
  · rw [if_neg hi]
    exact ⟨fun _ hmem => absurd hmem hi, fun _ => h⟩

/-- One operation on sound lists succeeds, and leaves them sound exactly if it unlinks a head. -/
theorem sound_step (hN : L.nodesPerPage ≤ 2 ^ 31) (h : Sound l) (op : Op) :
    ∃ l', step l op = some l' ∧ (Sound l' ↔ UnlinksHead l op) := by
  cases op with
  | create => exact sound_create hN h
  | createAt index => exact sound_createAt hN h index
  | erase index => exact sound_erase h index

theorem sound_step_iff (hN : L.nodesPerPage ≤ 2 ^ 31) (h : Sound l) {op : Op}
    (hstep : step l op = some l') : Sound l' ↔ UnlinksHead l op := by
  obtain ⟨s', hsome, hiff⟩ := sound_step hN h op
  obtain rfl : s' = l' := Option.some.inj (hsome.symm.trans hstep)
  exact hiff

/-- On sound lists `Create` returns an index that is not allocated. -/
theorem create_fresh (hN : L.nodesPerPage ≤ 2 ^ 31) (h : Sound l) (hok : UnlinksHead l .create)
    {index : UInt32} {n : Nat} (heq : l.create = some (l', index, n)) : l.get index = none := by
  obtain ⟨free, alloc, hch, -⟩ := sound_iff.mp h
  obtain ⟨l1, free', heq1, -, hnot, -⟩ := create_spec hN hch
  obtain ⟨-, rfl, -⟩ : l1 = l' ∧ UInt32.ofNat l.nextFree = index ∧ l.nextFree = n := by
    simpa using heq1.symm.trans heq
  rw [← Option.not_isSome_iff_eq_none, hch.get_isSome, toNat_ofNat hok]
  exact hnot

/-- **Soundness of the lists over whole runs.** From the empty list, the two lists stay sound through
a run exactly if every step of it unlinks at most a head; and in such a run `Create` returns an
index that was not allocated before the call. -/
theorem sound_always_iff (hN : L.nodesPerPage ≤ 2 ^ 31) (init : UInt32 → δ → δ) (raw : Memory δ)
    (ops : List Op) :
    (Always step Sound (empty L init raw) ops ↔ Meets step UnlinksHead (empty L init raw) ops) ∧
    ∀ l l' index n, Meets step UnlinksHead (empty L init raw) (ops ++ [.create]) →
      run step (empty L init raw) ops = some l → l.create = some (l', index, n) →
      l.get index = none := by
  have hiff := fun ops => always_iff_meets (I := fun _ => True) (fun _ _ _ _ _ _ _ => trivial)
    (fun s op s' _ hs hrun => sound_step_iff hN hs hrun) (fun s op _ hs hnone => by
      obtain ⟨s', hsome, -⟩ := sound_step hN hs op
      rw [hnone] at hsome
      cases hsome) trivial (sound_empty (L := L) init raw) ops
  refine ⟨hiff ops, fun l l' index n hmeets hrun heq => ?_⟩
  have hsound : Sound l := ((hiff ops).mpr hmeets.of_append).last hrun
  exact create_fresh hN hsound (hmeets.after hrun).1 heq

/-- Pages of three nodes with a four-byte payload. -/
def threeNodePages : Layout := ⟨75, 4, by decide⟩

/-- The empty list over pages of three nodes. -/
def emptyThree : IndexedUnmanagedList threeNodePages UInt32 :=
  empty threeNodePages (fun _ _ => 0) fun _ => ⟨0, false, none, none, 0⟩

theorem sound_always_iff_threeNodePages :
    (Always step Sound emptyThree [.create, .create, .erase 1, .createAt 1] ↔
      Meets step UnlinksHead emptyThree [.create, .create, .erase 1, .createAt 1]) ∧
    ∀ l l' index n, Meets step UnlinksHead emptyThree
        ([.create, .create, .erase 1, .createAt 1] ++ [.create]) →
      run step emptyThree [.create, .create, .erase 1, .createAt 1] = some l →
      l.create = some (l', index, n) → l.get index = none :=
  sound_always_iff (by decide) _ _ _

/-- Erasing the middle one of three slots and creating it again leaves it on both lists: the next
`Create` hands out the live slot 1 a second time. -/
theorem create_returns_live_index : ∃ l l' n,
    run step emptyThree [.create, .create, .create, .erase 1, .createAt 1] = some l ∧
      (l.get 1).isSome ∧ l.create = some (l', 1, n) :=
  ⟨_, _, _, rfl, by decide, rfl⟩

end IndexedUnmanagedList

end RatkiniaServer.MemoryPool
