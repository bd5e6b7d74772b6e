import RatkiniaServer.MpscMessageBodyPool

/-!
# `Acquire` and a recycled head

`Acquire` reads `expected->Next` before its compare-exchange, which only compares heads. When the head
has meanwhile been taken and put back, its `Next` may have changed, and the exchange installs the old
one. As long as this does not happen, the free lists and the blocks held share nothing.
-/

namespace RatkiniaServer.MpscMessageBodyPool

open Chains Transition

variable {maxBodySize : Nat} {s s' : MpscMessageBodyPool}

/-! ## The invariant -/

/-- The size `size` belongs to the free list with this index. -/
def Sized (maxBodySize size : Nat) (index : Fin 8) : Prop :=
  ∃ blockSize, getMemoryBlockListHeadFor maxBodySize size = some (index, blockSize)

/-- A body of the block size has room. -/
theorem le_blockSize {size blockSize : Nat} {index : Fin 8}
    (h : getMemoryBlockListHeadFor maxBodySize size = some (index, blockSize)) : size ≤ blockSize := by
  unfold getMemoryBlockListHeadFor at h
  split_ifs at h <;> (obtain ⟨-, rfl⟩ := Prod.mk.inj (Option.some.inj h); omega)

/-- The block size of a free list. -/
def blockSizeOf (maxBodySize : Nat) : Fin 8 → Nat
  | 0 => 16
  | 1 => 32
  | 2 => 64
  | 3 => 128
  | 4 => 256
  | 5 => 512
  | 6 => 1024
  | 7 => maxBodySize

theorem blockSize_eq {size blockSize : Nat} {index : Fin 8}
    (h : getMemoryBlockListHeadFor maxBodySize size = some (index, blockSize)) :
    blockSize = blockSizeOf maxBodySize index := by
  unfold getMemoryBlockListHeadFor at h
  split_ifs at h <;> (obtain ⟨rfl, rfl⟩ := Prod.mk.inj (Option.some.inj h); rfl)

/-- The free lists `lists` and the blocks held make up the pool. -/
structure Blocks (maxBodySize : Nat) (s : MpscMessageBodyPool) (lists : Fin 8 → List Nat) : Prop where
  chain : ∀ index, Chain s.next (s.memoryBlockListHeads index) (lists index)
  disjoint : ∀ index index' block, block ∈ lists index → block ∈ lists index' → index = index'
  held_once : (s.held.map Prod.fst).Nodup
  held_not_free : ∀ p ∈ s.held, ∀ index, p.1 ∉ lists index
  free_capacity : ∀ index, ∀ block ∈ lists index,
    s.capacity block = some (blockSizeOf maxBodySize index)
  held_capacity : ∀ p ∈ s.held, ∃ index, Sized maxBodySize p.2 index ∧
    s.capacity p.1 = some (blockSizeOf maxBodySize index)

/-- A thread in `Acquire` uses the free list of its size. -/
def AcquiringInv (maxBodySize : Nat) : Acquiring → Prop
  | .idle | .called _ => True
  | .looping index size _ | .nextRead index size _ _ => Sized maxBodySize size index

/-- The consumer has a block that is held, and uses the free list of its size. -/
def ReleasingInv (maxBodySize : Nat) (s : MpscMessageBodyPool) : Prop :=
  match s.releasing with
  | .idle => True
  | .called block size => (block, size) ∈ s.held
  | .looping index block size _ => (block, size) ∈ s.held ∧ Sized maxBodySize size index
  | .nextWritten index block size expected =>
    (block, size) ∈ s.held ∧ Sized maxBodySize size index ∧ s.next block = expected

structure Inv (maxBodySize : Nat) (s : MpscMessageBodyPool) : Prop where
  blocks : ∃ lists, Blocks maxBodySize s lists
  acquiring : ∀ t, AcquiringInv maxBodySize (s.acquiring t)
  releasing : ReleasingInv maxBodySize s

theorem inv_init (next : Nat → Option Nat) : Inv maxBodySize (init next) := by
  refine ⟨⟨fun _ => [], fun _ => rfl, ?_, List.nodup_nil, ?_, ?_, ?_⟩, fun _ => trivial, trivial⟩
  · intro index index' block hmem
    cases hmem
  · intro p hp
    cases hp
  · intro index block hmem
    cases hmem
  · intro p hp
    cases hp

/-- The invariant makes the pool safe. -/
theorem Inv.safe (h : Inv maxBodySize s) : s.Safe := by
  obtain ⟨lists, hblocks⟩ := h.blocks
  have hfree (index : Fin 8) (k : Nat) : s.freeBlock index k = (lists index)[k]? :=
    (hblocks.chain index).nth_eq k
  refine ⟨hblocks.held_once, ?_, ?_, ?_⟩
  · intro p hp index k hblock
    rw [hfree] at hblock
    exact hblocks.held_not_free p hp index (List.mem_of_getElem? hblock)
  · intro p hp
    obtain ⟨index, ⟨blockSize, hsized⟩, hcapacity⟩ := hblocks.held_capacity p hp
    refine ⟨_, hcapacity, ?_⟩
    rw [← blockSize_eq hsized]
    exact le_blockSize hsized
  · intro index k index' k' block hk hk'
    rw [hfree] at hk hk'
    obtain rfl := hblocks.disjoint index index' block (List.mem_of_getElem? hk)
      (List.mem_of_getElem? hk')
    refine ⟨rfl, ?_⟩
    have hlt := (List.getElem?_eq_some_iff.mp hk).1
    exact (List.getElem?_inj hlt (hblocks.chain index).nodup).mp (hk.trans hk'.symm)

/-! ## What the steps do to the blocks -/

theorem held_once_append {held : List (Nat × Nat)} {block size : Nat}
    (h : (held.map Prod.fst).Nodup) (hnew : ∀ p ∈ held, p.1 ≠ block) :
    ((held ++ [(block, size)]).map Prod.fst).Nodup := by
  rw [List.map_append, List.map_singleton, List.nodup_append]
  refine ⟨h, List.nodup_singleton _, fun b hb c hc => ?_⟩
  obtain ⟨p, hp, rfl⟩ := List.mem_map.mp hb
  rw [List.mem_singleton.mp hc]
  exact hnew p hp

/-- `Acquire` takes the head of a free list, and its successor becomes the head. -/
theorem Blocks.pop {lists : Fin 8 → List Nat} (h : Blocks maxBodySize s lists) {index : Fin 8}
    {block size t : Nat} (hsized : Sized maxBodySize size index)
    (hhead : s.memoryBlockListHeads index = some block) :
    ∃ lists', Blocks maxBodySize { s.acquired t block size with
      memoryBlockListHeads :=
        Function.update s.memoryBlockListHeads index (s.next block) } lists' := by
  have hchain := h.chain index
  rw [hhead] at hchain
  obtain ⟨rest, hlist, hrest⟩ := hchain.eq_cons
  have hblock : block ∈ lists index := by
    rw [hlist]
    exact List.mem_cons_self ..
  have hnodup := (h.chain index).nodup
  rw [hlist] at hnodup
  -- the lists only get shorter
  have hsub (i : Fin 8) : ∀ b ∈ Function.update lists index rest i, b ∈ lists i ∧ b ≠ block := by
    intro b hb
    rcases eq_or_ne i index with rfl | hne
    · rw [Function.update_self] at hb
      refine ⟨by rw [hlist]; exact List.mem_cons_of_mem _ hb, ?_⟩
      rintro rfl
      exact (List.nodup_cons.mp hnodup).1 hb
    · rw [Function.update_of_ne hne] at hb
      refine ⟨hb, ?_⟩
      rintro rfl
      exact hne (h.disjoint i index b hb hblock)
  refine ⟨Function.update lists index rest, ?_, ?_, ?_, ?_, ?_, ?_⟩
  · intro i
    rcases eq_or_ne i index with rfl | hne
    · simp only [Function.update_self]
      exact hrest
    · simp only [Function.update_of_ne hne]
      exact h.chain i
  · intro i j b hi hj
    exact h.disjoint i j b (hsub i b hi).1 (hsub j b hj).1
  · refine held_once_append h.held_once fun p hp => ?_
    rintro rfl
    exact h.held_not_free p hp index hblock
  · intro p hp i hmem
    rcases List.mem_append.mp hp with hp | hp
    · exact h.held_not_free p hp i (hsub i _ hmem).1
    · rw [List.mem_singleton.mp hp] at hmem
      exact (hsub i _ hmem).2 rfl
  · intro i b hb
    exact h.free_capacity i b (hsub i b hb).1
  · intro p hp
    rcases List.mem_append.mp hp with hp | hp
    · exact h.held_capacity p hp
    · rw [List.mem_singleton.mp hp]
      exact ⟨index, hsized, h.free_capacity index block hblock⟩

/-- `Acquire` allocates a block. -/
theorem Blocks.allocate {lists : Fin 8 → List Nat} (h : Blocks maxBodySize s lists) {index : Fin 8}
    {fresh size blockSize t : Nat}
    (hsized : getMemoryBlockListHeadFor maxBodySize size = some (index, blockSize))
    (hfresh : s.capacity fresh = none) :
    Blocks maxBodySize { s.acquired t fresh size with
      capacity := Function.update s.capacity fresh (some blockSize) } lists := by
  have hfree (i : Fin 8) : fresh ∉ lists i := by
    intro hmem
    rw [h.free_capacity i fresh hmem] at hfresh
    cases hfresh
  have hheld (p : Nat × Nat) (hp : p ∈ s.held) : p.1 ≠ fresh := by
    rintro rfl
    obtain ⟨i, -, hcapacity⟩ := h.held_capacity p hp
    rw [hcapacity] at hfresh
    cases hfresh
  refine ⟨h.chain, h.disjoint, ?_, ?_, ?_, ?_⟩
  · exact held_once_append h.held_once hheld
  · intro p hp i
    rcases List.mem_append.mp hp with hp | hp
    · exact h.held_not_free p hp i
    · rw [List.mem_singleton.mp hp]
      exact hfree i
  · intro i b hb
    have hne : b ≠ fresh := by
      rintro rfl
      exact hfree i hb
    show Function.update s.capacity fresh (some blockSize) b = _
    rw [Function.update_of_ne hne]
    exact h.free_capacity i b hb
  · intro p hp
    rcases List.mem_append.mp hp with hp | hp
    · obtain ⟨i, hsized', hcapacity⟩ := h.held_capacity p hp
      refine ⟨i, hsized', ?_⟩
      show Function.update s.capacity fresh (some blockSize) p.1 = _
      rw [Function.update_of_ne (hheld p hp)]
      exact hcapacity
    · rw [List.mem_singleton.mp hp]
      refine ⟨index, ⟨blockSize, hsized⟩, ?_⟩
      show Function.update s.capacity fresh (some blockSize) fresh = _
      rw [Function.update_self, ← blockSize_eq hsized]

/-- `Release` writes the `Next` of a block that is held. -/
theorem Blocks.writeNext {lists : Fin 8 → List Nat} (h : Blocks maxBodySize s lists)
    {block size : Nat} (hheld : (block, size) ∈ s.held) (expected : Option Nat) (r : Releasing) :
    Blocks maxBodySize
      { s with next := Function.update s.next block expected, releasing := r } lists :=
  ⟨fun index => (h.chain index).update (h.held_not_free _ hheld index) expected, h.disjoint,
    h.held_once, h.held_not_free, h.free_capacity, h.held_capacity⟩

/-- `Release` puts a block that is linked to the head in front of the free list. -/
theorem Blocks.push {lists : Fin 8 → List Nat} (h : Blocks maxBodySize s lists) {index : Fin 8}
    {block size : Nat} (hheld : (block, size) ∈ s.held) (hsized : Sized maxBodySize size index)
    (hlink : s.next block = s.memoryBlockListHeads index) :
    ∃ lists', Blocks maxBodySize { s with
      memoryBlockListHeads := Function.update s.memoryBlockListHeads index (some block)
      releasing := .idle
      held := s.held.erase (block, size) } lists' := by
  have hpairs : s.held.Nodup := .of_map _ h.held_once
  have hother (p : Nat × Nat) (hp : p ∈ s.held.erase (block, size)) : p ∈ s.held ∧ p.1 ≠ block := by
    obtain ⟨hne, hmem⟩ := (hpairs.mem_erase_iff).mp hp
    refine ⟨hmem, fun heq => hne ?_⟩
    exact List.inj_on_of_nodup_map h.held_once hmem hheld heq
  have hcapacity : s.capacity block = some (blockSizeOf maxBodySize index) := by
    obtain ⟨i, ⟨c, hc⟩, hcapacity⟩ := h.held_capacity _ hheld
    obtain ⟨c', hc'⟩ := hsized
    obtain ⟨rfl, -⟩ := Prod.mk.inj (Option.some.inj (hc.symm.trans hc'))
    exact hcapacity
  have hmem (i : Fin 8) (b : Nat) (hb : b ∈ Function.update lists index (block :: lists index) i) :
      (i = index ∧ b = block) ∨ b ∈ lists i := by
    rcases eq_or_ne i index with rfl | hne
    · rw [Function.update_self] at hb
      exact (List.mem_cons.mp hb).imp_left fun heq => ⟨rfl, heq⟩
    · rw [Function.update_of_ne hne] at hb
      exact Or.inr hb
  refine ⟨Function.update lists index (block :: lists index), ?_, ?_, ?_, ?_, ?_, ?_⟩
  · intro i
    rcases eq_or_ne i index with rfl | hne
    · simp only [Function.update_self]
      exact (h.chain i).push hlink
    · simp only [Function.update_of_ne hne]
      exact h.chain i
  · intro i j b hi hj
    rcases hmem i b hi with ⟨rfl, rfl⟩ | hi'
    · rcases hmem j b hj with ⟨rfl, -⟩ | hj'
      · rfl
      · exact absurd hj' (h.held_not_free _ hheld j)
    · rcases hmem j b hj with ⟨rfl, rfl⟩ | hj'
      · exact absurd hi' (h.held_not_free _ hheld i)
      · exact h.disjoint i j b hi' hj'
  · exact h.held_once.sublist (List.Sublist.map _ List.erase_sublist)
  · intro p hp i hi
    obtain ⟨hp, hne⟩ := hother p hp
    rcases hmem i _ hi with ⟨-, heq⟩ | hi
    · exact hne heq
    · exact h.held_not_free p hp i hi
  · intro i b hb
    rcases hmem i b hb with ⟨rfl, rfl⟩ | hb
    · exact hcapacity
    · exact h.free_capacity i b hb
  · intro p hp
    exact h.held_capacity p (hother p hp).1

/-! ## Steps -/

/-- The blocks of a pool do not depend on where the threads are. -/
theorem Blocks.congr {lists : Fin 8 → List Nat} (h : Blocks maxBodySize s lists)
    (acquiring : Nat → Acquiring) (releasing : Releasing) (aborted : Bool) :
    Blocks maxBodySize
      { s with acquiring := acquiring, releasing := releasing, aborted := aborted } lists :=
  ⟨h.chain, h.disjoint, h.held_once, h.held_not_free, h.free_capacity, h.held_capacity⟩

/-- What the consumer knows stays true while blocks are acquired. -/
theorem ReleasingInv.append (h : ReleasingInv maxBodySize s) {heads : Fin 8 → Option Nat}
    {capacity : Nat → Option Nat} {acquiring : Nat → Acquiring} {p : Nat × Nat} :
    ReleasingInv maxBodySize { s with
      memoryBlockListHeads := heads, capacity := capacity, acquiring := acquiring
      held := s.held ++ [p] } := by
  unfold ReleasingInv at *
  dsimp only
  cases hr : s.releasing with
  | idle => trivial
  | called block size =>
    rw [hr] at h
    exact List.mem_append_left _ h
  | looping index block size expected =>
    rw [hr] at h
    exact ⟨List.mem_append_left _ h.1, h.2⟩
  | nextWritten index block size expected =>
    rw [hr] at h
    exact ⟨List.mem_append_left _ h.1, h.2⟩

theorem acquiringInv_update (h : ∀ t, AcquiringInv maxBodySize (s.acquiring t)) {a : Acquiring}
    (ha : AcquiringInv maxBodySize a) (t : Nat) :
    ∀ t', AcquiringInv maxBodySize (Function.update s.acquiring t a t') := by
  rw [Function.forall_update_iff s.acquiring fun _ => AcquiringInv maxBodySize]
  exact ⟨ha, fun t' _ => h t'⟩

/-- A step of `Acquire` that takes no block. -/
theorem Inv.acquireAt (h : Inv maxBodySize s) {a : Acquiring} (ha : AcquiringInv maxBodySize a)
    (t : Nat) : Inv maxBodySize (s.acquireAt t a) := by
  obtain ⟨lists, hblocks⟩ := h.blocks
  exact ⟨⟨lists, hblocks.congr _ _ _⟩, acquiringInv_update h.acquiring ha t, h.releasing⟩

/-- The process aborts. -/
theorem Inv.abort (h : Inv maxBodySize s) : Inv maxBodySize { s with aborted := true } := by
  obtain ⟨lists, hblocks⟩ := h.blocks
  exact ⟨⟨lists, hblocks.congr _ _ _⟩, h.acquiring, h.releasing⟩

/-- The steps of `Acquire`, unless a stale successor is installed. -/
theorem runAcquire_inv {t fresh : Nat} {spurious : Bool} (h : Inv maxBodySize s)
    (hok : s.staleExchange (.runAcquire t spurious fresh) = false)
    (hstep : s.runAcquire maxBodySize t spurious fresh = some s') : Inv maxBodySize s' := by
  obtain ⟨lists, hblocks⟩ := h.blocks
  have hthread := h.acquiring t
  unfold runAcquire at hstep
  cases ha : s.acquiring t with
  | idle =>
    rw [ha] at hstep
    cases hstep
  | called size =>
    rw [ha] at hstep
    cases hget : getMemoryBlockListHeadFor maxBodySize size with
    | none =>
      simp only [hget] at hstep
      obtain rfl := Option.some.inj hstep
      exact h.abort
    | some found =>
      obtain ⟨index, blockSize⟩ := found
      simp only [hget] at hstep
      obtain rfl := Option.some.inj hstep
      exact h.acquireAt (a := .looping index size _) ⟨blockSize, hget⟩ t
  | looping index size expected =>
    rw [ha] at hstep hthread
    cases expected with
    | none =>
      obtain ⟨blockSize, hget⟩ := hthread
      simp only [hget] at hstep
      split_ifs at hstep with hfresh
      obtain rfl := Option.some.inj hstep
      exact ⟨⟨lists, hblocks.allocate hget hfresh⟩, acquiringInv_update h.acquiring (a := .idle) trivial t,
        h.releasing.append⟩
    | some expected =>
      obtain rfl := Option.some.inj hstep
      exact h.acquireAt (a := .nextRead index size expected _) hthread t
  | nextRead index size expected next =>
    rw [ha] at hstep hthread
    dsimp only at hstep
    split_ifs at hstep with hexchange
    · obtain ⟨rfl, hhead⟩ := hexchange
      obtain rfl := Option.some.inj hstep
      -- the value read still is the successor
      have hnext : s.next expected = next := by
        simp only [staleExchange, ha, hhead, true_and, decide_eq_false_iff_not, not_not] at hok
        exact hok
      subst hnext
      exact ⟨hblocks.pop hthread hhead, acquiringInv_update h.acquiring (a := .idle) trivial t,
        h.releasing.append⟩
    · obtain rfl := Option.some.inj hstep
      exact h.acquireAt (a := .looping index size _) hthread t

/-- The steps of `Release`. -/
theorem runRelease_inv {spurious : Bool} (h : Inv maxBodySize s)
    (hstep : s.runRelease maxBodySize spurious = some s') : Inv maxBodySize s' := by
  obtain ⟨lists, hblocks⟩ := h.blocks
  have hreleasing := h.releasing
  unfold runRelease at hstep
  unfold ReleasingInv at hreleasing
  cases hr : s.releasing with
  | idle =>
    rw [hr] at hstep
    cases hstep
  | called block size =>
    rw [hr] at hstep hreleasing
    cases hget : getMemoryBlockListHeadFor maxBodySize size with
    | none =>
      simp only [hget] at hstep
      obtain rfl := Option.some.inj hstep
      rw [← hr]
      exact h.abort
    | some found =>
      obtain ⟨index, blockSize⟩ := found
      simp only [hget] at hstep
      obtain rfl := Option.some.inj hstep
      exact ⟨⟨lists, hblocks.congr _ _ _⟩, h.acquiring, hreleasing, blockSize, hget⟩
  | looping index block size expected =>
    rw [hr] at hstep hreleasing
    obtain rfl := Option.some.inj hstep
    obtain ⟨hheld, hsized⟩ := hreleasing
    exact ⟨⟨lists, hblocks.writeNext hheld expected _⟩, h.acquiring, hheld, hsized,
      Function.update_self ..⟩
  | nextWritten index block size expected =>
    rw [hr] at hstep hreleasing
    obtain ⟨hheld, hsized, hlink⟩ := hreleasing
    dsimp only at hstep
    split_ifs at hstep with hexchange
    · obtain rfl := Option.some.inj hstep
      exact ⟨hblocks.push hheld hsized (hlink.trans hexchange.2.symm), h.acquiring, trivial⟩
    · obtain rfl := Option.some.inj hstep
      exact ⟨⟨lists, hblocks.congr _ _ _⟩, h.acquiring, hheld, hsized⟩

/-- Every step that installs no stale successor keeps the invariant. -/
theorem step_inv {a : Action} (h : Inv maxBodySize s) (hok : s.staleExchange a = false)
    (hstep : step maxBodySize s a = some s') : Inv maxBodySize s' := by
  simp only [step] at hstep
  split_ifs at hstep
  cases a with
  | acquire t size =>
    dsimp only at hstep
    split_ifs at hstep
    obtain rfl := Option.some.inj hstep
    exact h.acquireAt (a := .called size) trivial t
  | runAcquire t spurious fresh => exact runAcquire_inv h hok hstep
  | release block size =>
    dsimp only at hstep
    split_ifs at hstep with hheld
    obtain rfl := Option.some.inj hstep
    obtain ⟨lists, hblocks⟩ := h.blocks
    exact ⟨⟨lists, hblocks.congr _ _ _⟩, h.acquiring, hheld.2⟩
  | runRelease spurious => exact runRelease_inv h hstep

/-! ## Runs -/

/-- **The pool.** In a run in which no compare-exchange of `Acquire` succeeds after `expected->Next` has
changed, the pool is safe in every state. -/
theorem safe_always (maxBodySize : Nat) (next : Nat → Option Nat) (as : List Action)
    (hmeets : Meets (step maxBodySize) (fun s a => s.staleExchange a = false) (init next) as) :
    Always (step maxBodySize) Safe (init next) as := by
  have hinit : Inv maxBodySize (init next) := inv_init next
  refine always_of_meets (I := Inv maxBodySize) (fun s a s' hI _ hok hstep => ?_) hinit hinit.safe hmeets
  have hI' := step_inv hI hok hstep
  exact ⟨hI', hI'.safe⟩

/-- Thread 0 acquires two blocks and the consumer releases them, so that the free list is block 1 and
block 2. Thread 1 reads that block 2 follows block 1. -/
def loadSuccessor : List Action :=
  [.acquire 0 10, .runAcquire 0 false 0, .runAcquire 0 false 1,
    .acquire 0 10, .runAcquire 0 false 0, .runAcquire 0 false 2,
    .release 2 10, .runRelease false, .runRelease false, .runRelease false,
    .release 1 10, .runRelease false, .runRelease false, .runRelease false,
    .acquire 1 10, .runAcquire 1 false 0, .runAcquire 1 false 0]

/-- Thread 0 acquires both blocks, and the consumer releases block 1. -/
def recycleHead : List Action :=
  [.acquire 0 10, .runAcquire 0 false 0, .runAcquire 0 false 0, .runAcquire 0 false 0,
    .acquire 0 10, .runAcquire 0 false 0, .runAcquire 0 false 0, .runAcquire 0 false 0,
    .release 1 10, .runRelease false, .runRelease false, .runRelease false]

theorem safe_always_loadSuccessor :
    Always (step 100) Safe (init fun _ => none) (loadSuccessor ++ [.runAcquire 1 false 0]) :=
  safe_always 100 _ _ (by decide)

/-- The head is block 1 again when thread 1 compares, so block 2 becomes the head, which thread 0
holds. -/
theorem not_safe_recycledHead : ∃ s,
    run (step 100) (init fun _ => none) (loadSuccessor ++ recycleHead ++ [.runAcquire 1 false 0]) =
      some s ∧ ¬ s.Safe :=
  ⟨_, rfl, fun hsafe => hsafe.held_not_free (2, 10) (by decide) 0 0 rfl⟩

end RatkiniaServer.MpscMessageBodyPool
