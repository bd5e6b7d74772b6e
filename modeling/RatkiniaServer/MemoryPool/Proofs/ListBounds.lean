import RatkiniaServer.MemoryPool.Proofs.Slots

/-!
# `IndexedUnmanagedList` with broken lists

A stale back pointer makes `Erase` and `CreateAt` write into the wrong list, and then a free list may
lead to allocated nodes or lose free ones. What survives is that no pointer leaves the pages and that
every node knows its own position. This suffices to say what `Create` does to the slots.
-/

namespace RatkiniaServer.MemoryPool

open LinkedList

universe u

variable {δ : Type u} {L : Layout}

namespace IndexedUnmanagedList

/-- The pointer, if it is not null, points to one of the first `c` nodes. -/
def Below (c : Nat) (h : Option Nat) : Prop := ∀ n, h = some n → n < c

/-- The pointers that the operations follow lead to nodes of the pages, and the nodes know their
positions. -/
structure Bounded (l : IndexedUnmanagedList L δ) : Prop where
  /-- `freeHead_`. -/
  freeHead : Below l.nodeCount l.freeHead
  /-- `allocatedHead_`. -/
  allocatedHead : Below l.nodeCount l.allocatedHead
  /-- The `Next` pointers. -/
  next : ∀ n < l.nodeCount, Below l.nodeCount (l.mem.next n)
  /-- The `Index` fields. -/
  index_eq : ∀ n < l.nodeCount, (l.mem n).index = UInt32.ofNat n

variable {l l' : IndexedUnmanagedList L δ} {m m' : Memory δ} {c c' n : Nat} {h k : Option Nat}

theorem below_none (c : Nat) : Below c none := fun _ hn => by cases hn

theorem below_some (hn : n < c) : Below c (some n) := fun _ he => Option.some.inj he ▸ hn

theorem Below.mono (hh : Below c h) (hc : c ≤ c') : Below c' h := fun n hn => (hh n hn).trans_le hc

/-- Writing a pointer into the pages to a `Next` field. -/
theorem below_update {next : Nat → Option Nat} (hnext : ∀ n < c, Below c (next n)) (hh : Below c h) :
    ∀ k < c, Below c (Function.update next n h k) := by
  intro k hk
  by_cases hkn : k = n
  · rwa [hkn, Function.update_self]
  · rw [Function.update_of_ne hkn]
    exact hnext k hk

theorem bounded_empty (init : UInt32 → δ → δ) (raw : Memory δ) : Bounded (empty L init raw) := by
  have hcount : (empty L init raw).nodeCount = 0 := Nat.zero_mul _
  refine ⟨below_none _, below_none _, fun n hn => ?_, fun n hn => ?_⟩
  all_goals
    rw [hcount] at hn
    exact absurd hn (Nat.not_lt_zero n)

/-! ## New pages -/

/-- A page in front of the pages' nodes: the old `Next` pointers, and the chain of the new ones. -/
theorem Bounded.extend (hb : Bounded l) (hext : Extends l l')
    (hhead : Below l'.nodeCount l'.freeHead)
    (hold : ∀ n < l.nodeCount, l'.mem.next n = l.mem.next n)
    (hnew : ∀ n, l.nodeCount ≤ n → n < l'.nodeCount → Below l'.nodeCount (l'.mem.next n)) :
    Bounded l' where
  freeHead := hhead
  allocatedHead := by
    rw [hext.head_eq]
    exact hb.allocatedHead.mono hext.count_le
  next n hn := by
    by_cases hlt : n < l.nodeCount
    · rw [hold n hlt]
      exact (hb.next n hlt).mono hext.count_le
    · exact hnew n (Nat.not_lt.mp hlt) hn
  index_eq n hn := by
    by_cases hlt : n < l.nodeCount
    · rw [Memory.index_eq_slot, hext.old n hlt]
      exact hb.index_eq n hlt
    · obtain ⟨d, hd⟩ := hext.new n (Nat.not_lt.mp hlt) hn
      rw [Memory.index_eq_slot, hd]

/-- The pointers of a new page stay inside of it. -/
theorem extendPage_below (hN : L.nodesPerPage ≤ 2 ^ 31) (l : IndexedUnmanagedList L δ) :
    ∃ m, l.extendPage = ({ l with pageCount := l.pageCount + 1, mem := m }, some l.nodeCount,
        some (l.nodeCount + L.nodesPerPage - 1)) ∧
      (∀ n < l.nodeCount, m n = l.mem n) ∧
      (∀ n, l.nodeCount ≤ n → n < l.nodeCount + L.nodesPerPage →
        Below (l.nodeCount + L.nodesPerPage) (m.next n)) ∧
      ∀ n, l.nodeCount ≤ n → n < l.nodeCount + L.nodesPerPage → ∃ d, m.slot n =
        (UInt32.ofNat n, false, l.blockInitializerWhenPageAllocated (UInt32.ofNat n) d) := by
  obtain ⟨m, head, heq, hpage, hsame, hnew⟩ := extendPage_spec hN l
  have hhead : head = some l.nodeCount := hpage.head_eq.trans (head?_newPage l)
  rw [hhead] at heq
  refine ⟨m, heq, hsame, fun n hn hn' k hk => ?_, hnew⟩
  have hmem : n ∈ l.newPage := mem_newPage.mpr ⟨hn, hn'⟩
  obtain ⟨as, bs, hsplit⟩ := List.append_of_mem hmem
  rw [hsplit] at hpage
  have hbs : k ∈ bs := List.mem_of_mem_head? (hpage.behind.head_eq.symm.trans hk)
  have hk' : k ∈ l.newPage := by
    rw [hsplit]
    exact List.mem_append_right _ (List.mem_cons_of_mem _ hbs)
  exact (mem_newPage.mp hk').2

/-- The first statement of `Create`: there is a free node to take. -/
theorem Bounded.ensureFree (hN : L.nodesPerPage ≤ 2 ^ 31) (hb : Bounded l) :
    Bounded l.ensureFree ∧ Extends l l.ensureFree ∧ l.ensureFree.freeHead = some l.nextFree ∧
      l.ensureFree.nodeCount ≤ max l.nodeCount (l.nextFree + L.nodesPerPage) := by
  by_cases hempty : l.freeHead = none
  · obtain ⟨m, heq, hsame, hbelow, hnew⟩ := extendPage_below hN l
    have hens : l.ensureFree =
        { l with pageCount := l.pageCount + 1, mem := m, freeHead := some l.nodeCount } := by
      simp [IndexedUnmanagedList.ensureFree, hempty, heq]
    have hcount : l.ensureFree.nodeCount = l.nodeCount + L.nodesPerPage := by
      rw [hens, nodeCount_succ]
    have hnext : l.nextFree = l.nodeCount := by simp [nextFree, hempty]
    have hext : Extends l l.ensureFree := by
      refine ⟨by rw [hens], by rw [hens], by omega, fun n hn => ?_, fun n hn hn' => ?_⟩
      · simp only [hens, Memory.slot, hsame n hn]
      · rw [hcount] at hn'
        rw [hens]
        exact hnew n hn hn'
    have hpos := L.nodesPerPage_pos
    refine ⟨hb.extend hext ?_ (fun n hn => ?_) fun n hn hn' => ?_, hext, ?_, ?_⟩
    · rw [hcount, hens]
      exact below_some (by omega)
    · simp only [hens, Memory.next, hsame n hn]
    · rw [hcount] at hn' ⊢
      rw [hens]
      exact hbelow n hn hn'
    · rw [hens, hnext]
    · rw [hcount, hnext]
      exact le_max_right ..
  · have hens : l.ensureFree = l := by simp [IndexedUnmanagedList.ensureFree, hempty]
    obtain ⟨x, hx⟩ := Option.ne_none_iff_exists'.mp hempty
    rw [hens]
    exact ⟨hb, Extends.refl l, by rw [nextFree, hx, Option.getD_some], le_max_left ..⟩

/-- One round of the loop of `CreateAt`. -/
theorem Bounded.prependPage (hN : L.nodesPerPage ≤ 2 ^ 31) (hb : Bounded l)
    (heq : l.prependPage = some l') : Bounded l' := by
  obtain ⟨l₁, heq₁, hcount, hext⟩ := prependPage_extends hN l
  obtain rfl : l₁ = l' := Option.some.inj (heq₁.symm.trans heq)
  obtain ⟨m, hpage, hsame, hbelow, -⟩ := extendPage_below hN l
  set y := l.nodeCount + L.nodesPerPage - 1 with hy
  have hl' : l₁ = { l with
      pageCount := l.pageCount + 1
      mem := (m.setNext y l.freeHead).setPrevAt l.freeHead (some y)
      freeHead := some l.nodeCount } := by
    rw [IndexedUnmanagedList.prependPage, hpage] at heq₁
    exact (Option.some.inj heq₁).symm
  have hnodes : l₁.nodeCount = l.nodeCount + L.nodesPerPage := by rw [hl', nodeCount_succ]
  have hpos := L.nodesPerPage_pos
  have hnext : l₁.mem.next = Function.update m.next y l.freeHead := by simp [hl']
  refine hb.extend hext ?_ (fun n hn => ?_) fun n hn hn' => ?_
  · rw [hnodes, hl']
    exact below_some (by omega)
  · rw [hnext, Function.update_of_ne (by omega)]
    simp only [Memory.next, hsame n hn]
  · rw [hnodes] at hn' ⊢
    rw [hnext]
    by_cases hny : n = y
    · rw [hny, Function.update_self]
      exact hb.freeHead.mono (by omega)
    · rw [Function.update_of_ne hny]
      exact hbelow n hn hn'

/-- The loop of `CreateAt`. -/
theorem Bounded.prependPages (hN : L.nodesPerPage ≤ 2 ^ 31) (hb : Bounded l) {k : Nat}
    (heq : prependPages k l = some l') : Bounded l' := by
  induction k generalizing l with
  | zero => exact Option.some.inj heq ▸ hb
  | succ k ih =>
    obtain ⟨l₁, heq₁, hrest⟩ := Option.bind_eq_some_iff.mp heq
    exact ih (hb.prependPage hN heq₁) hrest

/-! ## Moving a node -/

theorem below_unlink (hnext : ∀ n < c, Below c (m.next n)) (hn : n < c) (hh : Below c h) :
    (∀ k < c, Below c ((unlink m h n).1.next k)) ∧ Below c (unlink m h n).2 := by
  cases hp : m.prev n with
  | none =>
    rw [unlink_of_prev_none hp]
    exact ⟨by simpa using hnext, hnext n hn⟩
  | some y =>
    rw [unlink_of_prev_some hp]
    refine ⟨?_, hh⟩
    simp only [Memory.next_setPrevAt, Memory.next_setNext]
    exact below_update hnext (hnext n hn)

theorem below_linkFront (hnext : ∀ n < c, Below c (m.next n)) (hh : Below c h) :
    ∀ k < c, Below c ((linkFront m h n).next k) := by
  simp only [linkFront, Memory.next_setPrevAt, Memory.next_setNext]
  exact below_update hnext hh

/-- A step that keeps the pages and the positions. -/
theorem Bounded.ofSamePages (hb : Bounded l) (hcount : l'.nodeCount = l.nodeCount)
    (hfree : Below l.nodeCount l'.freeHead) (halloc : Below l.nodeCount l'.allocatedHead)
    (hnext : ∀ n < l.nodeCount, Below l.nodeCount (l'.mem.next n))
    (hindex : ∀ n, (l'.mem n).index = (l.mem n).index) : Bounded l' where
  freeHead := by rwa [hcount]
  allocatedHead := by rwa [hcount]
  next := by rwa [hcount]
  index_eq n hn := by rw [hindex, hb.index_eq n (hcount ▸ hn)]

theorem index_of_slot {b : Bool} {d : δ}
    (hslot : ∀ k, m'.slot k = if k = n then ((m n).index, b, d) else m.slot k) (k : Nat) :
    (m' k).index = (m k).index := by
  rw [Memory.index_eq_slot, hslot]
  split_ifs with hk
  · rw [hk]
  · rfl

theorem Bounded.allocateNode (hb : Bounded l) (hn : n < l.nodeCount) : Bounded (l.allocateNode n) := by
  obtain ⟨hnext, hfree⟩ := below_unlink hb.next hn hb.freeHead
  refine hb.ofSamePages rfl hfree (below_some hn) ?_
    (index_of_slot (slot_move l.mem l.freeHead l.allocatedHead n true))
  simp only [IndexedUnmanagedList.allocateNode, Memory.next_setAllocated]
  exact below_linkFront hnext hb.allocatedHead

theorem Bounded.freeNode (hb : Bounded l) (hn : n < l.nodeCount) : Bounded (l.freeNode n) := by
  obtain ⟨hnext, halloc⟩ := below_unlink hb.next hn hb.allocatedHead
  refine hb.ofSamePages rfl (below_some hn) halloc ?_
    (index_of_slot (slot_move l.mem l.allocatedHead l.freeHead n false))
  simp only [IndexedUnmanagedList.freeNode, Memory.next_setAllocated]
  exact below_linkFront hnext hb.freeHead

theorem Bounded.setData (hb : Bounded l) (n : Nat) (d : δ) : Bounded (l.setData n d) :=
  hb.ofSamePages rfl hb.freeHead hb.allocatedHead (by simpa [IndexedUnmanagedList.setData] using hb.next)
    (index_of_slot (Memory.slot_setData l.mem n · d))

/-! ## The operations -/

/-- What `Create` does to the slots, whatever the lists are: it sets the flag of the node at the head
of the free list. -/
theorem Bounded.create (hN : L.nodesPerPage ≤ 2 ^ 31) (hb : Bounded l) :
    ∃ l', l.create = some (l', UInt32.ofNat l.nextFree, l.nextFree) ∧ Bounded l' ∧
      l'.blockInitializerWhenPageAllocated = l.blockInitializerWhenPageAllocated ∧
      l'.nodeCount = l.ensureFree.nodeCount ∧ l.nextFree < l.ensureFree.nodeCount ∧
      ∀ k, l'.mem.slot k = if k = l.nextFree then
        ((l.ensureFree.mem l.nextFree).index, true, (l.ensureFree.mem l.nextFree).data)
        else l.ensureFree.mem.slot k := by
  obtain ⟨hbe, hext, hhead, -⟩ := hb.ensureFree hN
  set n := l.nextFree
  set e := l.ensureFree with he
  have hlt : n < e.nodeCount := hbe.freeHead n hhead
  have hslot := slot_create e.mem e.allocatedHead n
  have hindex : ((createMove e.mem e.allocatedHead n) n).index = UInt32.ofNat n := by
    rw [Memory.index_eq_slot, hslot, if_pos rfl]
    exact hbe.index_eq n hlt
  set l' : IndexedUnmanagedList L δ := { e with
    mem := createMove e.mem e.allocatedHead n
    freeHead := e.mem.next n
    allocatedHead := some n }
  refine ⟨l', ?_, ?_, hext.init_eq, rfl, hlt, hslot⟩
  · rw [IndexedUnmanagedList.create, ← he, hhead]
    exact congrArg some (Prod.ext rfl (Prod.ext hindex rfl))
  · refine hbe.ofSamePages rfl (hbe.next n hlt) (below_some hlt) ?_ (index_of_slot hslot)
    change ∀ k < e.nodeCount, Below e.nodeCount ((createMove e.mem e.allocatedHead n).next k)
    simp only [createMove, Memory.next_setAllocated]
    refine below_linkFront ?_ hbe.allocatedHead
    simp only [Memory.next_setPrev, Memory.next_setNext, Memory.next_setPrevAt]
    exact below_update hbe.next (below_none _)

theorem Bounded.createAt (hN : L.nodesPerPage ≤ 2 ^ 31) (hb : Bounded l) {index : UInt32}
    {r : Option Nat} (heq : l.createAt index = some (l', r)) : Bounded l' := by
  obtain ⟨e, hpages, hrest⟩ := Option.map_eq_some_iff.mp heq
  obtain ⟨e', hpages', hcount, -⟩ :=
    prependPages_extends hN (index.toNat / L.nodesPerPage + 1 - l.pageCount) l
  obtain rfl : e' = e := Option.some.inj (hpages'.symm.trans hpages)
  have hbe := hb.prependPages hN hpages
  have hlt : index.toNat < e'.nodeCount := by
    rw [lt_nodeCount_iff]
    omega
  simp only [position_eq] at hrest
  split_ifs at hrest
  · obtain ⟨rfl, -⟩ := Prod.mk.inj hrest
    exact hbe
  · obtain ⟨rfl, -⟩ := Prod.mk.inj hrest
    exact hbe.allocateNode hlt

theorem Bounded.erase (hb : Bounded l) (index : UInt32) : Bounded (l.erase index) := by
  simp only [IndexedUnmanagedList.erase, position_eq]
  split_ifs with hpage hflag
  · exact hb
  · exact hb
  · exact hb.freeNode ((lt_nodeCount_iff index).mpr (by omega))

end IndexedUnmanagedList

end RatkiniaServer.MemoryPool
