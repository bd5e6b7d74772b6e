import RatkiniaServer.MemoryPool.IndexedUnmanagedList
import Mathlib.Data.List.Range

/-!
# What the operations of `IndexedUnmanagedList` do to the two chains

`Chains l pf pa free alloc` says that the free list of `l` is the chain `free` and its allocated list
the chain `alloc`, that the two divide the nodes of all pages between them as the `Allocated` flags
say, and that the heads of the two chains carry the back pointers `pf` and `pa`. Each operation is
characterised by the chains it leaves. The back pointers of the heads are tracked exactly: they are
null after `Create`, but `CreateAt` and `Erase` push a node without resetting its `Prev`.
-/

namespace RatkiniaServer.MemoryPool

open LinkedList

universe u

variable {δ : Type u}

namespace Memory

variable (m : Memory δ) (n k : Nat) (w : Node δ) (h v : Option Nat) (b : Bool) (d : δ)

/-- The part of a node that pointer surgery leaves alone. -/
def slot (m : Memory δ) (n : Nat) : UInt32 × Bool × δ := ((m n).index, (m n).allocated, (m n).data)

theorem next_setNode : (m.setNode n w).next = Function.update m.next n w.next := by
  funext k
  by_cases hk : k = n <;> simp [setNode, next, hk]

theorem prev_setNode : (m.setNode n w).prev = Function.update m.prev n w.prev := by
  funext k
  by_cases hk : k = n <;> simp [setNode, prev, hk]

theorem slot_setNode : (m.setNode n w).slot k =
    if k = n then (w.index, w.allocated, w.data) else m.slot k := by
  by_cases hk : k = n <;> simp [setNode, slot, hk]

@[simp] theorem next_setNext : (m.setNext n v).next = Function.update m.next n v := next_setNode ..

@[simp] theorem prev_setNext : (m.setNext n v).prev = m.prev :=
  (prev_setNode ..).trans (Function.update_eq_self n m.prev)

@[simp] theorem next_setPrev : (m.setPrev n v).next = m.next :=
  (next_setNode ..).trans (Function.update_eq_self n m.next)

@[simp] theorem prev_setPrev : (m.setPrev n v).prev = Function.update m.prev n v := prev_setNode ..

@[simp] theorem next_setPrevAt : (m.setPrevAt h v).next = m.next := by
  cases h <;> simp [setPrevAt]

@[simp] theorem prev_setPrevAt : (m.setPrevAt h v).prev = setAt m.prev h v := by
  cases h <;> simp [setPrevAt, setAt]

@[simp] theorem next_setAllocated : (m.setAllocated n b).next = m.next :=
  (next_setNode ..).trans (Function.update_eq_self n m.next)

@[simp] theorem prev_setAllocated : (m.setAllocated n b).prev = m.prev :=
  (prev_setNode ..).trans (Function.update_eq_self n m.prev)

@[simp] theorem next_setData : (m.setData n d).next = m.next :=
  (next_setNode ..).trans (Function.update_eq_self n m.next)

@[simp] theorem prev_setData : (m.setData n d).prev = m.prev :=
  (prev_setNode ..).trans (Function.update_eq_self n m.prev)

@[simp] theorem slot_setNext : (m.setNext n v).slot k = m.slot k := by
  rw [setNext, slot_setNode]
  split_ifs with hk
  · rw [hk]; rfl
  · rfl

@[simp] theorem slot_setPrev : (m.setPrev n v).slot k = m.slot k := by
  rw [setPrev, slot_setNode]
  split_ifs with hk
  · rw [hk]; rfl
  · rfl

@[simp] theorem slot_setPrevAt : (m.setPrevAt h v).slot k = m.slot k := by
  cases h <;> simp [setPrevAt]

@[simp] theorem slot_setAllocated : (m.setAllocated n b).slot k =
    if k = n then ((m n).index, b, (m n).data) else m.slot k := slot_setNode ..

@[simp] theorem slot_setData : (m.setData n d).slot k =
    if k = n then ((m n).index, (m n).allocated, d) else m.slot k := slot_setNode ..

theorem index_eq_slot : (m n).index = (m.slot n).1 := rfl

theorem allocated_eq_slot : (m n).allocated = (m.slot n).2.1 := rfl

theorem data_eq_slot : (m n).data = (m.slot n).2.2 := rfl

end Memory

namespace IndexedUnmanagedList

variable {L : Layout}

/-! ## `ExtendPage` -/

/-- The loop of `ExtendPage` chains the nodes of the page in order, initialises each of them once and
leaves the rest of the memory alone. -/
theorem extendPageLoop_spec (init : UInt32 → δ → δ) (base N : Nat) :
    ∀ (k : Nat) (m : Memory δ) (head last : Option Nat), k ≤ N →
      Linked m.next m.prev none head (List.range' (base + k) (N - k)) →
      last = (List.range' (base + k) (N - k)).getLast? →
      let r := extendPageLoop init base k m head last
      Linked r.1.next r.1.prev none r.2.1 (List.range' base N) ∧
      r.2.2 = (List.range' base N).getLast? ∧
      (∀ n, n < base ∨ base + k ≤ n → r.1.slot n = m.slot n) ∧
      (∀ n, n < base ∨ base + N ≤ n → r.1 n = m n) ∧
      (∀ n, base ≤ n → n < base + k →
        r.1.slot n = (UInt32.ofNat n, false, init (UInt32.ofNat n) (m n).data)) := by
  intro k
  induction k with
  | zero =>
    intro m head last _ hl hlast
    exact ⟨hl, hlast, fun _ _ => rfl, fun _ _ => rfl, fun n h1 h2 => absurd h2 (by omega)⟩
  | succ i ih =>
    intro m head last hk hl hlast
    set x := base + i with hx
    set m1 := m.setNode x
      { index := UInt32.ofNat base + UInt32.ofNat i, allocated := false, next := head, prev := none,
        data := (m x).data } with hm1
    have hrange : List.range' x (N - i) = x :: List.range' (base + (i + 1)) (N - (i + 1)) := by
      rw [show N - i = N - (i + 1) + 1 by omega, List.range'_succ]
      rfl
    have hnotin : x ∉ List.range' (base + (i + 1)) (N - (i + 1)) := by
      simp only [List.mem_range'_1]
      omega
    have hslot1 : ∀ n, m1.slot n =
        if n = x then (UInt32.ofNat x, false, (m x).data) else m.slot n := by
      intro n
      rw [hm1, Memory.slot_setNode, hx, UInt32.ofNat_add]
    set m2 := m1.setPrevAt head (some x) with hm2
    set m3 := m2.setData x (init (UInt32.ofNat base + UInt32.ofNat i) (m2 x).data) with hm3
    have hlinked : Linked m3.next m3.prev none (some x) (List.range' x (N - i)) := by
      have hframe : Linked m.next (Function.update m.prev x none) none head
          (List.range' (base + (i + 1)) (N - (i + 1))) :=
        hl.frame fun z hz => ⟨rfl, Function.update_of_ne (by rintro rfl; exact hnotin hz) _ _⟩
      have hpush := hframe.push hnotin
      rw [Function.update_self] at hpush
      rw [hrange, hm3, Memory.next_setData, Memory.prev_setData, hm2, Memory.next_setPrevAt,
        Memory.prev_setPrevAt, hm1, Memory.next_setNode, Memory.prev_setNode]
      exact hpush
    have hlast3 : (if last = none then some x else last) = (List.range' x (N - i)).getLast? := by
      rw [hrange, hlast]
      cases hr : List.range' (base + (i + 1)) (N - (i + 1)) with
      | nil => rfl
      | cons y ys => simp [List.getLast?_cons]
    have hout : ∀ n, n < base ∨ base + N ≤ n → m3 n = m n := by
      intro n hn
      have hnx : n ≠ x := by omega
      have hhead : head ≠ some n := hl.head_ne (by simp only [List.mem_range'_1]; omega)
      have h2 : m2 n = m1 n := by
        cases head with
        | none => rfl
        | some y => exact Function.update_of_ne (fun e => hhead (by rw [e])) _ _
      rw [hm3, Memory.setData, Memory.setNode, Function.update_of_ne hnx, h2, hm1, Memory.setNode,
        Function.update_of_ne hnx]
    have hslot3 : ∀ n, m3.slot n =
        if n = x then (UInt32.ofNat x, false, init (UInt32.ofNat x) (m x).data) else m.slot n := by
      intro n
      have h2 : m2.slot n = m1.slot n := Memory.slot_setPrevAt ..
      have h2x : m2.slot x = m1.slot x := Memory.slot_setPrevAt ..
      rw [hslot1, if_pos rfl] at h2x
      rw [hm3, Memory.slot_setData, h2, hslot1, Memory.index_eq_slot, Memory.allocated_eq_slot,
        Memory.data_eq_slot, h2x, ← UInt32.ofNat_add]
      by_cases hn : n = x
      · rw [if_pos hn, if_pos hn]
      · rw [if_neg hn, if_neg hn, if_neg hn]
    obtain ⟨r1, r2, r3, r4, r5⟩ := ih m3 (some x) (if last = none then some x else last) (by omega)
      hlinked hlast3
    refine ⟨r1, r2, fun n hn => ?_, fun n hn => (r4 n hn).trans (hout n hn), fun n h1 h2 => ?_⟩
    · refine (r3 n (by omega)).trans ?_
      rw [hslot3, if_neg (by omega)]
    · by_cases hn : n = x
      · refine (r3 n (by omega)).trans ?_
        rw [hslot3, if_pos hn, hn]
      · have hdata : (m3 n).data = (m n).data := by
          rw [Memory.data_eq_slot, hslot3, if_neg hn]
          rfl
        refine (r5 n h1 (by omega)).trans ?_
        rw [hdata]

/-! ## Unlinking a node and linking it in front -/

section Surgery

variable {m : Memory δ} {p q h : Option Nat} {n : Nat} {xs ys zs : List Nat}

theorem unlink_of_prev_none (hp : m.prev n = none) :
    unlink m h n = (m.setPrevAt (m.next n) none, m.next n) := by
  simp [unlink, hp]

theorem unlink_of_prev_some {y : Nat} (hp : m.prev n = some y) :
    unlink m h n = ((m.setNext y (m.next n)).setPrevAt ((m.setNext y (m.next n)).next n) (some y), h) := by
  simp [unlink, hp]

/-- `unlink` takes the node out of its chain, unless it is a head with a stale back pointer. -/
theorem unlink_linked (hl : Linked m.next m.prev p h (xs ++ n :: ys)) (hp : xs = [] → p = none) :
    Linked (unlink m h n).1.next (unlink m h n).1.prev p (unlink m h n).2 (xs ++ ys) := by
  have hnd := hl.nodup
  rcases List.eq_nil_or_concat xs with rfl | ⟨xs', y, rfl⟩
  · have hnone : m.prev n = none := hl.2.1.trans (hp rfl)
    rw [unlink_of_prev_none hnone, hp rfl]
    simp only [Memory.next_setPrevAt, Memory.prev_setPrevAt]
    exact Linked.unlinkHead hl
  · rw [List.concat_eq_append, List.append_assoc] at *
    have hsome : m.prev n = some y := hl.prev_eq
    have hny : n ≠ y := by
      rintro rfl
      have := (List.nodup_append.mp hnd).2.1
      simp at this
    rw [unlink_of_prev_some hsome]
    simp only [Memory.next_setPrevAt, Memory.prev_setPrevAt, Memory.next_setNext,
      Memory.prev_setNext, Function.update_of_ne hny]
    exact Linked.unlinkInner hl

/-- `unlink` leaves the pointers of the nodes outside of the chain alone. -/
theorem unlink_frame (hl : Linked m.next m.prev p h (xs ++ n :: ys)) (hp : xs = [] → p = none) {z : Nat}
    (hz : z ∉ xs ++ ys) :
    (z ≠ n → (unlink m h n).1.next z = m.next z) ∧ (unlink m h n).1.prev z = m.prev z := by
  have hznext : m.next n ≠ some z := by
    intro he
    have hhead := hl.behind.head_eq
    rw [he] at hhead
    exact hz (List.mem_append_right _ (List.mem_of_mem_head? hhead.symm))
  rcases List.eq_nil_or_concat xs with rfl | ⟨xs', y, rfl⟩
  · have hnone : m.prev n = none := hl.2.1.trans (hp rfl)
    rw [unlink_of_prev_none hnone]
    simp [setAt_of_ne _ hznext]
  · rw [List.concat_eq_append, List.append_assoc] at hl
    have hzy : z ≠ y := by
      rintro rfl
      exact hz (by simp)
    have hny : n ≠ y := by
      rintro rfl
      have := (List.nodup_append.mp hl.nodup).2.1
      simp at this
    rw [unlink_of_prev_some hl.prev_eq]
    simp [Function.update_of_ne hzy, Function.update_of_ne hny, setAt_of_ne _ hznext]

@[simp] theorem slot_unlink (k : Nat) : (unlink m h n).1.slot k = m.slot k := by
  cases hp : m.prev n with
  | none => simp [unlink_of_prev_none hp]
  | some y => simp [unlink_of_prev_some hp]

/-- `linkFront` puts the node in front of the chain; its own back pointer stays what it was. -/
theorem linkFront_linked (hl : Linked m.next m.prev q h zs) (hn : n ∉ zs) :
    Linked (linkFront m h n).next (linkFront m h n).prev (m.prev n) (some n) (n :: zs) := by
  simp only [linkFront, Memory.next_setPrevAt, Memory.prev_setPrevAt, Memory.next_setNext,
    Memory.prev_setNext]
  exact hl.push hn

/-- `linkFront` leaves the pointers of the nodes outside of the chain alone. -/
theorem linkFront_frame (hl : Linked m.next m.prev q h zs) {z : Nat} (hzn : z ≠ n) (hz : z ∉ zs) :
    (linkFront m h n).next z = m.next z ∧ (linkFront m h n).prev z = m.prev z := by
  simp [linkFront, Function.update_of_ne hzn, setAt_of_ne _ (hl.head_ne hz)]

@[simp] theorem slot_linkFront (k : Nat) : (linkFront m h n).slot k = m.slot k := by
  simp [linkFront]

theorem not_mem_of_nodup_middle {xs ys : List Nat} {n : Nat} (h : (xs ++ n :: ys).Nodup) :
    n ∉ xs ++ ys := by
  rw [List.nodup_middle] at h
  exact (List.nodup_cons.mp h).1

theorem mem_middle_iff {xs ys : List Nat} {n k : Nat} :
    k ∈ xs ++ n :: ys ↔ k = n ∨ k ∈ xs ++ ys := by
  rw [List.perm_middle.mem_iff, List.mem_cons]

/-- **Moving a node** from one chain to the front of another. -/
theorem move_linked (hfrom : Linked m.next m.prev p h (xs ++ n :: ys)) (hp : xs = [] → p = none)
    {k : Option Nat} (hto : Linked m.next m.prev q k zs) (hdisj : ∀ z ∈ zs, z ∉ xs ++ n :: ys) :
    Linked (linkFront (unlink m h n).1 k n).next (linkFront (unlink m h n).1 k n).prev p
      (unlink m h n).2 (xs ++ ys) ∧
    Linked (linkFront (unlink m h n).1 k n).next (linkFront (unlink m h n).1 k n).prev (m.prev n)
      (some n) (n :: zs) := by
  have hnn : n ∉ xs ++ ys := not_mem_of_nodup_middle hfrom.nodup
  have hnzs : n ∉ zs := fun hz => hdisj n hz (by simp)
  have hout : ∀ z ∈ zs, z ∉ xs ++ ys := fun z hz hmem => hdisj z hz (by
    rcases List.mem_append.mp hmem with h1 | h1 <;> simp [h1])
  have hto' : Linked (unlink m h n).1.next (unlink m h n).1.prev q k zs :=
    hto.frame fun z hz => by
      obtain ⟨h1, h2⟩ := unlink_frame hfrom hp (hout z hz)
      exact ⟨h1 (by rintro rfl; exact hnzs hz), h2⟩
  refine ⟨?_, ?_⟩
  · refine (unlink_linked hfrom hp).frame fun z hz => ?_
    exact linkFront_frame hto' (by rintro rfl; exact hnn hz) fun hzs => hout z hzs hz
  · rw [← (unlink_frame hfrom hp hnn).2]
    exact linkFront_linked hto' hnzs

end Surgery

/-! ## The two chains of a list -/

/-- The free list is the chain `free`, the allocated list the chain `alloc`, and the two divide the
nodes between them; `pf` and `pa` are the back pointers of the two heads. -/
structure Chains (l : IndexedUnmanagedList L δ) (pf pa : Option Nat) (free alloc : List Nat) :
    Prop where
  /-- The chain from `freeHead_`. -/
  free_linked : Linked l.mem.next l.mem.prev pf l.freeHead free
  /-- The chain from `allocatedHead_`. -/
  alloc_linked : Linked l.mem.next l.mem.prev pa l.allocatedHead alloc
  /-- No node is on both chains. -/
  disjoint : ∀ n ∈ free, n ∉ alloc
  /-- The chains together hold the nodes of all pages. -/
  mem_iff : ∀ n, n ∈ free ∨ n ∈ alloc ↔ n < l.nodeCount
  /-- The flag tells which chain a node is on. -/
  allocated_iff : ∀ n < l.nodeCount, (l.mem n).allocated = true ↔ n ∈ alloc
  /-- A node knows its own index. -/
  index_eq : ∀ n < l.nodeCount, (l.mem n).index = UInt32.ofNat n

namespace Chains

variable {l : IndexedUnmanagedList L δ} {pf pa : Option Nat} {free alloc : List Nat} {n : Nat}

theorem lt_of_free (h : Chains l pf pa free alloc) (hn : n ∈ free) : n < l.nodeCount :=
  (h.mem_iff n).mp (Or.inl hn)

theorem lt_of_alloc (h : Chains l pf pa free alloc) (hn : n ∈ alloc) : n < l.nodeCount :=
  (h.mem_iff n).mp (Or.inr hn)

theorem mem_free_iff (h : Chains l pf pa free alloc) (hn : n < l.nodeCount) :
    n ∈ free ↔ (l.mem n).allocated = false := by
  rw [← Bool.not_eq_true, h.allocated_iff n hn]
  exact ⟨h.disjoint n, fun hna => ((h.mem_iff n).mpr hn).resolve_right hna⟩

end Chains

theorem chains_empty (init : UInt32 → δ → δ) (raw : Memory δ) :
    Chains (empty L init raw) none none [] [] where
  free_linked := rfl
  alloc_linked := rfl
  disjoint := by simp
  mem_iff := by simp [empty, nodeCount]
  allocated_iff := by simp [empty, nodeCount]
  index_eq := by simp [empty, nodeCount]

/-- The nodes of the page after the last one, in order. -/
def newPage (l : IndexedUnmanagedList L δ) : List Nat := List.range' l.nodeCount L.nodesPerPage

theorem mem_newPage {l : IndexedUnmanagedList L δ} {n : Nat} :
    n ∈ l.newPage ↔ l.nodeCount ≤ n ∧ n < l.nodeCount + L.nodesPerPage := List.mem_range'_1

theorem newPage_eq (l : IndexedUnmanagedList L δ) :
    l.newPage = List.range' l.nodeCount (L.nodesPerPage - 1) ++
      [l.nodeCount + L.nodesPerPage - 1] := by
  have hpos := L.nodesPerPage_pos
  have hsplit : List.range' l.nodeCount (L.nodesPerPage - 1 + 1) =
      List.range' l.nodeCount (L.nodesPerPage - 1) ++ [l.nodeCount + 1 * (L.nodesPerPage - 1)] :=
    List.range'_concat
  rw [show L.nodesPerPage - 1 + 1 = L.nodesPerPage by omega] at hsplit
  rw [newPage, hsplit]
  congr 2
  omega

theorem head?_newPage (l : IndexedUnmanagedList L δ) : l.newPage.head? = some l.nodeCount := by
  have hpos := L.nodesPerPage_pos
  rw [newPage, show L.nodesPerPage = L.nodesPerPage - 1 + 1 by omega, List.range'_succ]
  rfl

variable {l : IndexedUnmanagedList L δ} {pf pa : Option Nat} {free alloc : List Nat}

/-- What a page extension does to the payload and flags of the nodes: those of the old pages keep
them, those of new pages are free and initialised. -/
structure Extends (l l' : IndexedUnmanagedList L δ) : Prop where
  /-- The allocated list is not touched. -/
  head_eq : l'.allocatedHead = l.allocatedHead
  /-- The initializer is a constant. -/
  init_eq : l'.blockInitializerWhenPageAllocated = l.blockInitializerWhenPageAllocated
  /-- Pages are only added. -/
  count_le : l.nodeCount ≤ l'.nodeCount
  /-- Old nodes. -/
  old : ∀ n < l.nodeCount, l'.mem.slot n = l.mem.slot n
  /-- New nodes. -/
  new : ∀ n, l.nodeCount ≤ n → n < l'.nodeCount → ∃ d, l'.mem.slot n =
    (UInt32.ofNat n, false, l.blockInitializerWhenPageAllocated (UInt32.ofNat n) d)

theorem Extends.refl (l : IndexedUnmanagedList L δ) : Extends l l :=
  ⟨rfl, rfl, le_rfl, fun _ _ => rfl, fun _ h1 h2 => absurd h2 (by omega)⟩

theorem Extends.trans {l l' l'' : IndexedUnmanagedList L δ} (h : Extends l l')
    (h' : Extends l' l'') : Extends l l'' := by
  refine ⟨h'.head_eq.trans h.head_eq, h'.init_eq.trans h.init_eq, h.count_le.trans h'.count_le,
    fun n hn => ?_, fun n hn hn' => ?_⟩
  · exact (h'.old n (hn.trans_le h.count_le)).trans (h.old n hn)
  · by_cases hlt : n < l'.nodeCount
    · obtain ⟨d, hd⟩ := h.new n hn hlt
      exact ⟨d, (h'.old n hlt).trans hd⟩
    · obtain ⟨d, hd⟩ := h'.new n (by omega) hn'
      exact ⟨d, by rw [hd, h.init_eq]⟩

theorem nodeCount_succ (m : Memory δ) (h : Option Nat) : nodeCount (L := L)
    { l with pageCount := l.pageCount + 1, mem := m, freeHead := h } =
      l.nodeCount + L.nodesPerPage := by
  simp [nodeCount, Nat.add_mul]

/-- `ExtendPage` chains the nodes of the new page and touches no other node. -/
theorem extendPage_spec (hN : L.nodesPerPage ≤ 2 ^ 31) (l : IndexedUnmanagedList L δ) :
    ∃ m head, l.extendPage = ({ l with pageCount := l.pageCount + 1, mem := m }, head,
        some (l.nodeCount + L.nodesPerPage - 1)) ∧
      Linked m.next m.prev none head l.newPage ∧
      (∀ n < l.nodeCount, m n = l.mem n) ∧
      ∀ n, l.nodeCount ≤ n → n < l.nodeCount + L.nodesPerPage → ∃ d, m.slot n =
        (UInt32.ofNat n, false, l.blockInitializerWhenPageAllocated (UInt32.ofNat n) d) := by
  obtain ⟨h1, h2, -, h4, h5⟩ := extendPageLoop_spec l.blockInitializerWhenPageAllocated l.nodeCount
    L.nodesPerPage L.nodesPerPage l.mem none none le_rfl (by simp) (by simp)
  refine ⟨_, _, ?_, h1, fun n hn => h4 n (Or.inl hn), fun n hn hn' => ⟨_, h5 n hn hn'⟩⟩
  rw [extendPage, Layout.pageLoopCount_eq hN]
  refine Prod.ext rfl (Prod.ext rfl ?_)
  refine h2.trans ?_
  rw [show List.range' l.nodeCount L.nodesPerPage = l.newPage from rfl, newPage_eq]
  simp

/-- A page in front of the free list: what both uses of `ExtendPage` come to. -/
theorem Chains.extend {l' : IndexedUnmanagedList L δ} (h : Chains l pf pa free alloc)
    (hext : Extends l l') (hcount : l'.nodeCount = l.nodeCount + L.nodesPerPage)
    (hfree : Linked l'.mem.next l'.mem.prev none l'.freeHead (l.newPage ++ free))
    (halloc : Linked l'.mem.next l'.mem.prev pa l'.allocatedHead alloc) :
    Chains l' none pa (l.newPage ++ free) alloc where
  free_linked := hfree
  alloc_linked := halloc
  disjoint n hn hna := by
    have hlt := h.lt_of_alloc hna
    rcases List.mem_append.mp hn with hn | hn
    · have := (mem_newPage.mp hn).1
      omega
    · exact h.disjoint n hn hna
  mem_iff n := by
    rw [List.mem_append, mem_newPage, or_assoc, h.mem_iff n, hcount]
    omega
  allocated_iff n hn := by
    by_cases hlt : n < l.nodeCount
    · rw [Memory.allocated_eq_slot, hext.old n hlt, ← Memory.allocated_eq_slot]
      exact h.allocated_iff n hlt
    · obtain ⟨d, hd⟩ := hext.new n (by omega) hn
      rw [Memory.allocated_eq_slot, hd]
      simp only [Bool.false_eq_true, false_iff]
      exact fun hna => hlt (h.lt_of_alloc hna)
  index_eq n hn := by
    by_cases hlt : n < l.nodeCount
    · rw [Memory.index_eq_slot, hext.old n hlt, ← Memory.index_eq_slot]
      exact h.index_eq n hlt
    · obtain ⟨d, hd⟩ := hext.new n (by omega) hn
      rw [Memory.index_eq_slot, hd]

/-- A chain of old nodes survives a page extension. -/
theorem Linked.ofOldNodes {m m' : Memory δ} {c : Nat} {p k : Option Nat} {xs : List Nat}
    (hl : Linked m.next m.prev p k xs) (hlt : ∀ n ∈ xs, n < c) (hsame : ∀ n < c, m' n = m n) :
    Linked m'.next m'.prev p k xs :=
  hl.frame fun z hz => by simp [Memory.next, Memory.prev, hsame z (hlt z hz)]

/-- The first statement of `Create` leaves a free node, and an extended free list has a proper head. -/
theorem ensureFree_spec (hN : L.nodesPerPage ≤ 2 ^ 31) (h : Chains l pf pa free alloc) :
    ∃ pf' free', Chains l.ensureFree pf' pa (l.freeHead.getD l.nodeCount :: free') alloc ∧
      Extends l l.ensureFree ∧ (l.freeHead.getD l.nodeCount :: free' = free ∨
        free = [] ∧ l.freeHead.getD l.nodeCount :: free' = l.newPage) := by
  by_cases hempty : l.freeHead = none
  · obtain ⟨m, head, heq, hpage, hsame, hnew⟩ := extendPage_spec hN l
    have hnil : free = [] := by
      have hhead := h.free_linked.head_eq
      rw [hempty] at hhead
      exact List.head?_eq_none_iff.mp hhead.symm
    have hens : l.ensureFree =
        { l with pageCount := l.pageCount + 1, mem := m, freeHead := head } := by
      simp [ensureFree, hempty, heq]
    have hext : Extends l l.ensureFree := by
      rw [hens]
      refine ⟨rfl, rfl, ?_, fun n hn => ?_, fun n hn hn' => hnew n hn ?_⟩
      · rw [nodeCount_succ]
        exact Nat.le_add_right ..
      · simp only [Memory.slot, hsame n hn]
      · rwa [nodeCount_succ] at hn'
    have hchains := h.extend hext (by rw [hens, nodeCount_succ])
      (by rw [hens, hnil, List.append_nil]; exact hpage)
      (by rw [hens]; exact Linked.ofOldNodes h.alloc_linked (fun n hn => h.lt_of_alloc hn) hsame)
    have hcons : l.newPage ++ free = l.freeHead.getD l.nodeCount ::
        List.range' (l.nodeCount + 1) (L.nodesPerPage - 1) := by
      have hpos := L.nodesPerPage_pos
      rw [hnil, List.append_nil, newPage, hempty,
        show L.nodesPerPage = L.nodesPerPage - 1 + 1 by omega, List.range'_succ]
      rfl
    rw [hcons] at hchains
    refine ⟨_, _, hchains, hext, Or.inr ⟨hnil, ?_⟩⟩
    rw [← hcons, hnil, List.append_nil]
  · have hens : l.ensureFree = l := by simp [ensureFree, hempty]
    rw [hens]
    cases free with
    | nil => exact absurd h.free_linked hempty
    | cons x xs =>
      rw [h.free_linked.1, Option.getD_some]
      exact ⟨_, _, h, Extends.refl l, Or.inl rfl⟩

/-- One round of the loop of `CreateAt`. -/
theorem prependPage_spec (hN : L.nodesPerPage ≤ 2 ^ 31) (h : Chains l pf pa free alloc) :
    ∃ l', l.prependPage = some l' ∧ l'.pageCount = l.pageCount + 1 ∧
      Chains l' none pa (l.newPage ++ free) alloc ∧ Extends l l' := by
  obtain ⟨m, head, heq, hpage, hsame, hnew⟩ := extendPage_spec hN l
  set y := l.nodeCount + L.nodesPerPage - 1 with hy
  have hpos := L.nodesPerPage_pos
  have hfree : Linked m.next m.prev pf l.freeHead free :=
    Linked.ofOldNodes h.free_linked (fun n hn => h.lt_of_free hn) hsame
  have halloc : Linked m.next m.prev pa l.allocatedHead alloc :=
    Linked.ofOldNodes h.alloc_linked (fun n hn => h.lt_of_alloc hn) hsame
  have hpage' : Linked m.next m.prev none head
      (List.range' l.nodeCount (L.nodesPerPage - 1) ++ [y]) := newPage_eq l ▸ hpage
  have hsplice := hpage'.splice hfree fun z hz hmem => by
    have h1 := h.lt_of_free hz
    have h2 := (mem_newPage (l := l)).mp (newPage_eq l ▸ hmem)
    omega
  set l' : IndexedUnmanagedList L δ := { l with
    pageCount := l.pageCount + 1
    mem := (m.setNext y l.freeHead).setPrevAt l.freeHead (some y)
    freeHead := head } with hl'
  have heq' : l.prependPage = some l' := by rw [prependPage, heq]
  have hext : Extends l l' := by
    refine ⟨rfl, rfl, ?_, fun n hn => ?_, fun n hn hn' => ?_⟩
    · rw [hl', nodeCount_succ]
      exact Nat.le_add_right ..
    · rw [hl', Memory.slot_setPrevAt, Memory.slot_setNext, Memory.slot, hsame n hn]
      rfl
    · rw [hl', nodeCount_succ] at hn'
      simpa [hl'] using hnew n hn hn'
  refine ⟨l', heq', rfl, h.extend hext (nodeCount_succ ..) ?_ ?_, hext⟩
  · simp only [hl', Memory.next_setPrevAt, Memory.prev_setPrevAt, Memory.next_setNext,
      Memory.prev_setNext]
    rw [newPage_eq, List.append_assoc]
    exact hsplice
  · simp only [hl', Memory.next_setPrevAt, Memory.prev_setPrevAt, Memory.next_setNext,
      Memory.prev_setNext]
    refine halloc.frame fun z hz => ⟨Function.update_of_ne ?_ _ _, setAt_of_ne _ ?_⟩
    · have := h.lt_of_alloc hz
      omega
    · exact hfree.head_ne fun hzf => h.disjoint z hzf hz

/-- The loop of `CreateAt`: as many new pages as it is asked for. -/
theorem prependPages_spec (hN : L.nodesPerPage ≤ 2 ^ 31) (k : Nat) :
    ∀ {l : IndexedUnmanagedList L δ} {pf : Option Nat} {free : List Nat},
      Chains l pf pa free alloc →
      ∃ l' pf' free', prependPages k l = some l' ∧ l'.pageCount = l.pageCount + k ∧
        Chains l' pf' pa free' alloc ∧ Extends l l' ∧ (k = 0 → l' = l ∧ pf' = pf ∧ free' = free) ∧
        (0 < k → pf' = none ∧ free'.head? = some ((l.pageCount + k - 1) * L.nodesPerPage)) := by
  induction k with
  | zero =>
    intro l pf free h
    exact ⟨l, pf, free, rfl, rfl, h, Extends.refl l, fun _ => ⟨rfl, rfl, rfl⟩,
      fun hk => absurd hk (by omega)⟩
  | succ k ih =>
    intro l pf free h
    obtain ⟨l1, heq1, hcount1, hchains1, hext1⟩ := prependPage_spec hN h
    obtain ⟨l2, pf2, free2, heq2, hcount2, hchains2, hext2, hzero, hpos⟩ := ih hchains1
    refine ⟨l2, ?_⟩
    have heq : prependPages (k + 1) l = some l2 := by rw [prependPages, heq1]; exact heq2
    have hcount : l2.pageCount = l.pageCount + (k + 1) := by omega
    by_cases hk : k = 0
    · obtain ⟨rfl, -, -⟩ := hzero hk
      refine ⟨none, l.newPage ++ free, heq, hcount, hchains1, hext1, by simp, fun _ => ⟨rfl, ?_⟩⟩
      rw [List.head?_append, head?_newPage, hk]
      simp [nodeCount]
    · refine ⟨pf2, free2, heq, hcount, hchains2, hext1.trans hext2, by simp, fun _ => ?_⟩
      obtain ⟨h1, h2⟩ := hpos (by omega)
      refine ⟨h1, ?_⟩
      rw [h2, hcount1, show l.pageCount + 1 + k - 1 = l.pageCount + (k + 1) - 1 by omega]

/-! ## `Create`, `CreateAt` and `Erase` -/

@[simp] theorem position_eq (index : UInt32) : position L index = index.toNat :=
  Nat.div_add_mod' ..

/-- An index addresses a page that exists exactly if it is the position of a node. -/
theorem lt_nodeCount_iff (index : UInt32) :
    index.toNat < l.nodeCount ↔ index.toNat / L.nodesPerPage < l.pageCount :=
  (Nat.div_lt_iff_lt_mul L.nodesPerPage_pos).symm

theorem get_eq (index : UInt32) : l.get index =
    if index.toNat < l.nodeCount ∧ (l.mem index.toNat).allocated then some index.toNat else none := by
  have hiff := lt_nodeCount_iff (l := l) index
  simp only [get, position_eq]
  by_cases hlt : index.toNat < l.nodeCount
  · have hpage : ¬ l.pageCount ≤ index.toNat / L.nodesPerPage := by
      have := hiff.mp hlt
      omega
    rw [if_neg hpage]
    simp [hlt]
  · have hpage : l.pageCount ≤ index.toNat / L.nodesPerPage := by
      by_contra hcon
      exact hlt (hiff.mpr (by omega))
    rw [if_pos hpage, if_neg fun hh => hlt hh.1]

/-- `Get` finds exactly the nodes of the allocated chain. -/
theorem Chains.get_isSome (h : Chains l pf pa free alloc) (index : UInt32) :
    (l.get index).isSome ↔ index.toNat ∈ alloc := by
  rw [get_eq]
  by_cases hlt : index.toNat < l.nodeCount
  · simp [hlt, h.allocated_iff _ hlt]
  · simp only [hlt, false_and, if_false, Option.isSome_none, Bool.false_eq_true, false_iff]
    exact fun hn => hlt (h.lt_of_alloc hn)

/-- Payloads are kept. -/
def SameData (l l' : IndexedUnmanagedList L δ) : Prop :=
  l'.pageCount = l.pageCount ∧
  l'.blockInitializerWhenPageAllocated = l.blockInitializerWhenPageAllocated ∧
  ∀ n, (l'.mem n).data = (l.mem n).data

/-- Rebuilding the invariant after one node `n` has changed sides: its flag is now `b`. -/
theorem Chains.changeSides (h : Chains l pf pa free alloc) {l' : IndexedUnmanagedList L δ}
    {pf' pa' : Option Nat} {free' alloc' : List Nat} {n : Nat} {b : Bool}
    (hfree : Linked l'.mem.next l'.mem.prev pf' l'.freeHead free')
    (halloc : Linked l'.mem.next l'.mem.prev pa' l'.allocatedHead alloc')
    (hcount : l'.nodeCount = l.nodeCount)
    (hslot : ∀ k, l'.mem.slot k =
      if k = n then ((l.mem n).index, b, (l.mem n).data) else l.mem.slot k)
    (hdisj : ∀ k ∈ free', k ∉ alloc')
    (hmem : ∀ k, k ∈ free' ∨ k ∈ alloc' ↔ k ∈ free ∨ k ∈ alloc)
    (hside : ∀ k, k ∈ alloc' ↔ if k = n then b = true else k ∈ alloc) :
    Chains l' pf' pa' free' alloc' where
  free_linked := hfree
  alloc_linked := halloc
  disjoint := hdisj
  mem_iff k := by rw [hmem, hcount, h.mem_iff]
  allocated_iff k hk := by
    rw [Memory.allocated_eq_slot, hslot, hside]
    by_cases hkn : k = n
    · rw [if_pos hkn, if_pos hkn]
    · rw [if_neg hkn, if_neg hkn]
      exact h.allocated_iff k (hcount ▸ hk)
  index_eq k hk := by
    rw [Memory.index_eq_slot, hslot]
    by_cases hkn : k = n
    · rw [if_pos hkn, hkn]
      exact h.index_eq n (hkn ▸ hcount ▸ hk)
    · rw [if_neg hkn]
      exact h.index_eq k (hcount ▸ hk)

theorem slot_move (m : Memory δ) (h k : Option Nat) (n : Nat) (b : Bool) (i : Nat) :
    ((linkFront (unlink m h n).1 k n).setAllocated n b).slot i =
      if i = n then ((m n).index, b, (m n).data) else m.slot i := by
  rw [Memory.slot_setAllocated, slot_linkFront, slot_unlink, Memory.index_eq_slot,
    Memory.data_eq_slot, slot_linkFront, slot_unlink]
  rfl

/-- Taking a node from the free chain, unless it is a head with a stale back pointer. -/
theorem Chains.allocateNode {xs ys : List Nat} {n : Nat} (h : Chains l pf pa (xs ++ n :: ys) alloc)
    (hp : xs = [] → pf = none) :
    Chains (l.allocateNode n) pf (l.mem.prev n) (xs ++ ys) (n :: alloc) := by
  have hnn : n ∉ xs ++ ys := not_mem_of_nodup_middle h.free_linked.nodup
  obtain ⟨hfree, halloc⟩ := move_linked h.free_linked hp h.alloc_linked
    (fun z hz hmem => h.disjoint z hmem hz)
  refine h.changeSides (n := n) (b := true) (by simpa [IndexedUnmanagedList.allocateNode] using hfree)
    (by simpa [IndexedUnmanagedList.allocateNode] using halloc) rfl (slot_move l.mem _ _ n true)
    (fun k hk hka => ?_) (fun k => ?_) fun k => ?_
  · rcases List.mem_cons.mp hka with rfl | hka
    · exact hnn hk
    · exact h.disjoint k (mem_middle_iff.mpr (Or.inr hk)) hka
  · rw [mem_middle_iff, List.mem_cons]
    tauto
  · by_cases hkn : k = n <;> simp [hkn]

/-- Returning a node to the free chain, unless it is a head with a stale back pointer. -/
theorem Chains.freeNode {xs ys : List Nat} {n : Nat} (h : Chains l pf pa free (xs ++ n :: ys))
    (hp : xs = [] → pa = none) :
    Chains (l.freeNode n) (l.mem.prev n) pa (n :: free) (xs ++ ys) := by
  have hnn : n ∉ xs ++ ys := not_mem_of_nodup_middle h.alloc_linked.nodup
  obtain ⟨halloc, hfree⟩ := move_linked h.alloc_linked hp h.free_linked
    (fun z hz hmem => h.disjoint z hz hmem)
  refine h.changeSides (n := n) (b := false) (by simpa [IndexedUnmanagedList.freeNode] using hfree)
    (by simpa [IndexedUnmanagedList.freeNode] using halloc) rfl (slot_move l.mem _ _ n false)
    (fun k hk hka => ?_) (fun k => ?_) fun k => ?_
  · rcases List.mem_cons.mp hk with rfl | hk
    · exact hnn hka
    · exact h.disjoint k hk (mem_middle_iff.mpr (Or.inr hka))
  · rw [mem_middle_iff, List.mem_cons]
    tauto
  · by_cases hkn : k = n
    · rw [if_pos hkn, hkn]
      simpa using hnn
    · rw [if_neg hkn, mem_middle_iff]
      simp [hkn]

theorem sameData_allocateNode (n : Nat) : SameData l (l.allocateNode n) := by
  refine ⟨rfl, rfl, fun k => ?_⟩
  refine (congrArg (fun s => s.2.2) (slot_move l.mem l.freeHead l.allocatedHead n true k)).trans ?_
  split_ifs with hk
  · rw [hk]
  · rfl

theorem sameData_freeNode (n : Nat) : SameData l (l.freeNode n) := by
  refine ⟨rfl, rfl, fun k => ?_⟩
  refine (congrArg (fun s => s.2.2) (slot_move l.mem l.allocatedHead l.freeHead n false k)).trans ?_
  split_ifs with hk
  · rw [hk]
  · rfl

/-- The node `Create` takes: the head of the free list, or the first node of a new page. -/
def nextFree (l : IndexedUnmanagedList L δ) : Nat := l.freeHead.getD l.nodeCount

/-- The writes of `Create` to the memory, once it has a free node `n`. -/
def createMove (m : Memory δ) (allocatedHead : Option Nat) (n : Nat) : Memory δ :=
  (linkFront (((m.setPrevAt (m.next n) none).setNext n none).setPrev n none) allocatedHead
    n).setAllocated n true

/-- `Create` changes the flag of one slot. -/
theorem slot_create (m : Memory δ) (h : Option Nat) (n k : Nat) : (createMove m h n).slot k =
    if k = n then ((m n).index, true, (m n).data) else m.slot k := by
  rw [createMove, Memory.slot_setAllocated, slot_linkFront, Memory.index_eq_slot,
    Memory.data_eq_slot, slot_linkFront]
  simp only [Memory.slot_setPrev, Memory.slot_setNext, Memory.slot_setPrevAt]
  rfl

/-- `Create` moves the head of the free chain to the front of the allocated chain, and leaves both
heads with null back pointers whatever they held before. -/
theorem create_spec (hN : L.nodesPerPage ≤ 2 ^ 31) (h : Chains l pf pa free alloc) :
    ∃ l' free', l.create = some (l', UInt32.ofNat l.nextFree, l.nextFree) ∧
      Chains l' none none free' (l.nextFree :: alloc) ∧ l.nextFree ∉ alloc ∧
      Extends l l.ensureFree ∧ SameData l.ensureFree l' ∧
      (l.nextFree :: free' = free ∨ free = [] ∧ l.nextFree :: free' = l.newPage) := by
  obtain ⟨pf', free', hch, hext, hshape⟩ := ensureFree_spec hN h
  change Chains l.ensureFree pf' pa (l.nextFree :: free') alloc at hch
  set n := l.nextFree with hn
  set e := l.ensureFree with he
  have hnd := List.nodup_cons.mp hch.free_linked.nodup
  have hna : n ∉ alloc := hch.disjoint n (List.mem_cons_self ..)
  have hlt : n < e.nodeCount := hch.lt_of_free (List.mem_cons_self ..)
  set m1 := ((e.mem.setPrevAt (e.mem.next n) none).setNext n none).setPrev n none with hm1
  set m2 := (linkFront m1 e.allocatedHead n).setAllocated n true with hm2
  have hslot := slot_create e.mem e.allocatedHead n
  rw [createMove, ← hm1, ← hm2] at hslot
  have hnext1 : m1.next = Function.update e.mem.next n none := by simp [hm1]
  have hprev1 : m1.prev = Function.update (setAt e.mem.prev (e.mem.next n) none) n none := by
    simp [hm1]
  have hfree1 : Linked m1.next m1.prev none (e.mem.next n) free' := by
    rw [hnext1, hprev1]
    refine (Linked.unlinkHead hch.free_linked).frame fun z hz => ?_
    have hzn : z ≠ n := by
      rintro rfl
      exact hnd.1 hz
    exact ⟨Function.update_of_ne hzn _ _, Function.update_of_ne hzn _ _⟩
  have halloc1 : Linked m1.next m1.prev pa e.allocatedHead alloc := by
    rw [hnext1, hprev1]
    refine hch.alloc_linked.frame fun z hz => ?_
    have hzn : z ≠ n := by
      rintro rfl
      exact hna hz
    have hznext : e.mem.next n ≠ some z :=
      hch.free_linked.2.2.head_ne fun hzf => hch.disjoint z (List.mem_cons_of_mem _ hzf) hz
    exact ⟨Function.update_of_ne hzn _ _,
      (Function.update_of_ne hzn _ _).trans (setAt_of_ne _ hznext)⟩
  have hprevn : m1.prev n = none := by rw [hprev1, Function.update_self]
  refine ⟨{ e with mem := m2, freeHead := e.mem.next n, allocatedHead := some n }, free', ?_, ?_,
    hna, hext, ⟨rfl, rfl, fun k => ?_⟩, hshape⟩
  · have hindex : (m2 n).index = UInt32.ofNat n := by
      rw [Memory.index_eq_slot, hslot, if_pos rfl, hch.index_eq n hlt]
    rw [create, ← he, hch.free_linked.1]
    simp only [← hm1, ← hm2, hindex]
  · refine hch.changeSides (n := n) (b := true) ?_ ?_ rfl hslot (fun k hk hka => ?_)
      (fun k => ?_) fun k => ?_
    · simp only [hm2, Memory.next_setAllocated, Memory.prev_setAllocated]
      refine hfree1.frame fun z hz => linkFront_frame halloc1 ?_ fun hza => ?_
      · rintro rfl
        exact hnd.1 hz
      · exact hch.disjoint z (List.mem_cons_of_mem _ hz) hza
    · simp only [hm2, Memory.next_setAllocated, Memory.prev_setAllocated]
      rw [← hprevn]
      exact linkFront_linked halloc1 hna
    · rcases List.mem_cons.mp hka with rfl | hka
      · exact hnd.1 hk
      · exact hch.disjoint k (List.mem_cons_of_mem _ hk) hka
    · simp only [List.mem_cons]
      tauto
    · by_cases hkn : k = n <;> simp [hkn]
  · show (m2 k).data = (e.mem k).data
    rw [Memory.data_eq_slot, hslot]
    split_ifs with hk
    · rw [hk]
    · rfl

/-- `CreateAt` on an allocated slot only answers with a null pointer. -/
theorem createAt_of_mem (h : Chains l pf pa free alloc) {index : UInt32} (hi : index.toNat ∈ alloc) :
    l.createAt index = some (l, none) := by
  have hlt := h.lt_of_alloc hi
  have hpages : index.toNat / L.nodesPerPage + 1 - l.pageCount = 0 := by
    have := (lt_nodeCount_iff index).mp hlt
    omega
  simp [createAt, hpages, prependPages, (h.allocated_iff _ hlt).mpr hi]

/-- `CreateAt` on a free slot: after the page extension, if one is needed, the node is on the free
chain, and `allocateNode` runs on it. -/
theorem createAt_of_not_mem (hN : L.nodesPerPage ≤ 2 ^ 31) (h : Chains l pf pa free alloc)
    {index : UInt32} (hi : index.toNat ∉ alloc) :
    ∃ e pf' free', l.createAt index = some (e.allocateNode index.toNat, some index.toNat) ∧
      Chains e pf' pa free' alloc ∧ Extends l e ∧ index.toNat ∈ free' ∧
      (index.toNat < l.nodeCount → e = l ∧ pf' = pf ∧ free' = free) ∧
      (l.nodeCount ≤ index.toNat →
        pf' = none ∧ free'.head? = some (index.toNat / L.nodesPerPage * L.nodesPerPage)) := by
  set k := index.toNat / L.nodesPerPage + 1 - l.pageCount with hk
  obtain ⟨e, pf', free', heq, hcount, hch, hext, hzero, hpos⟩ := prependPages_spec hN k h
  have hiff := lt_nodeCount_iff (l := l) index
  have hlt : index.toNat < e.nodeCount := by
    rw [lt_nodeCount_iff]
    omega
  have hfree : index.toNat ∈ free' := ((hch.mem_iff _).mpr hlt).resolve_right hi
  refine ⟨e, pf', free', ?_, hch, hext, hfree, fun hold => ?_, fun hnew => ?_⟩
  · have hflag : (e.mem index.toNat).allocated = false := (hch.mem_free_iff hlt).mp hfree
    simp [createAt, ← hk, heq, hflag]
  · have := hiff.mp hold
    exact hzero (by omega)
  · have hpage : l.pageCount ≤ index.toNat / L.nodesPerPage := by
      by_contra hcon
      have := hiff.mpr (by omega)
      omega
    obtain ⟨h1, h2⟩ := hpos (by omega)
    refine ⟨h1, ?_⟩
    rw [h2, show l.pageCount + k - 1 = index.toNat / L.nodesPerPage by omega]

/-- `Erase` runs `freeNode` on an allocated slot and does nothing otherwise. -/
theorem erase_eq (h : Chains l pf pa free alloc) (index : UInt32) :
    l.erase index = if index.toNat ∈ alloc then l.freeNode index.toNat else l := by
  have hiff := lt_nodeCount_iff (l := l) index
  simp only [erase, position_eq]
  by_cases hi : index.toNat ∈ alloc
  · have hlt := h.lt_of_alloc hi
    have hpage := hiff.mp hlt
    rw [if_neg (by omega), if_neg (by simp [(h.allocated_iff _ hlt).mpr hi]), if_pos hi]
  · rw [if_neg hi]
    split_ifs with h1 h2
    · rfl
    · rfl
    · have hlt : index.toNat < l.nodeCount := hiff.mpr (by omega)
      exact absurd ((h.allocated_iff _ hlt).mp (by simpa using h2)) hi

/-- Writing a payload changes no pointer. -/
theorem Chains.setData (h : Chains l pf pa free alloc) (n : Nat) (d : δ) :
    Chains (l.setData n d) pf pa free alloc where
  free_linked := by simpa [IndexedUnmanagedList.setData] using h.free_linked
  alloc_linked := by simpa [IndexedUnmanagedList.setData] using h.alloc_linked
  disjoint := h.disjoint
  mem_iff := h.mem_iff
  allocated_iff k hk := by
    rw [← h.allocated_iff k hk, Memory.allocated_eq_slot, Memory.allocated_eq_slot]
    rw [IndexedUnmanagedList.setData, Memory.slot_setData]
    split_ifs with hkn
    · rw [hkn, Memory.slot]
    · rfl
  index_eq k hk := by
    rw [← h.index_eq k hk, Memory.index_eq_slot, Memory.index_eq_slot]
    rw [IndexedUnmanagedList.setData, Memory.slot_setData]
    split_ifs with hkn
    · rw [hkn, Memory.slot]
    · rfl

theorem data_setData (l : IndexedUnmanagedList L δ) (n k : Nat) (d : δ) :
    ((l.setData n d).mem k).data = if k = n then d else (l.mem k).data := by
  rw [Memory.data_eq_slot, IndexedUnmanagedList.setData, Memory.slot_setData]
  split_ifs <;> rfl

/-- A page extension and a move keep the payloads of the allocated slots. -/
theorem data_eq_of_extends {l' e : IndexedUnmanagedList L δ} (h : Chains l pf pa free alloc) (hext : Extends l e)
    (hdata : SameData e l') {k : Nat} (hk : k ∈ alloc) : (l'.mem k).data = (l.mem k).data := by
  rw [hdata.2.2 k, Memory.data_eq_slot, Memory.data_eq_slot, hext.old k (h.lt_of_alloc hk)]

/-! ## Iteration -/

/-- Iterating a chain visits its nodes in order and ends. -/
theorem iterateFrom_spec {m : Memory δ} {p k : Option Nat} {xs : List Nat} {fuel : Nat}
    (hl : Linked m.next m.prev p k xs) (hfuel : xs.length ≤ fuel) :
    iterateFrom m fuel k = some (xs.map fun n => ((m n).index, (m n).data)) := by
  induction xs generalizing p k fuel with
  | nil =>
    rw [linked_nil.mp hl]
    cases fuel <;> rfl
  | cons x xs ih =>
    obtain ⟨rfl, -, ht⟩ := hl
    cases fuel with
    | zero => simp at hfuel
    | succ fuel =>
      rw [iterateFrom, ih ht (by simpa using hfuel)]
      rfl

/-- The iteration of a list visits the allocated chain. -/
theorem Chains.iterate (h : Chains l pf pa free alloc) {fuel : Nat} (hfuel : alloc.length ≤ fuel) :
    l.iterate fuel = some (alloc.map fun n => (UInt32.ofNat n, (l.mem n).data)) := by
  rw [IndexedUnmanagedList.iterate, iterateFrom_spec h.alloc_linked hfuel]
  congr 1
  refine List.map_congr_left fun n hn => ?_
  rw [h.index_eq n (h.lt_of_alloc hn)]

/-- An iteration that ends has visited the whole chain. -/
theorem iterateFrom_unique {m : Memory δ} {p k : Option Nat} {xs : List Nat} {fuel : Nat}
    {es : List (UInt32 × δ)} (hl : Linked m.next m.prev p k xs) (hit : iterateFrom m fuel k = some es) :
    es = xs.map fun n => ((m n).index, (m n).data) := by
  induction xs generalizing p k fuel es with
  | nil =>
    rw [linked_nil.mp hl] at hit
    cases fuel <;> exact (Option.some.inj hit).symm
  | cons x xs ih =>
    obtain ⟨rfl, -, ht⟩ := hl
    cases fuel with
    | zero => simp [iterateFrom] at hit
    | succ fuel =>
      rw [iterateFrom, Option.map_eq_some_iff] at hit
      obtain ⟨rest, hrest, rfl⟩ := hit
      rw [ih ht hrest, List.map_cons]

end IndexedUnmanagedList

end RatkiniaServer.MemoryPool
