import RatkiniaServer.MemoryPool.ElementLifetimes
import RatkiniaServer.MemoryPool.Proofs.SparseArray

/-!
# Which elements a `SparseArray` destroys

The operations keep an element in each of the first `count_` dense blocks and in no other. The destructor
destroys all blocks of all pages, so it is right only where the pages are full.
-/

namespace RatkiniaServer.MemoryPool.SparseArray

open Lifetimes Transition

universe u

variable {α : Type u} {Z : SparseArraySizes} {movedFrom : α → α} {w w' : Traced Z α}

/-! ## What is claimed -/

/-- The destructor of the array comes to its end, and with it constructions and destructions balance. -/
def DestructsBalanced (w : Traced Z α) : Prop :=
  ∃ events, destructorEvents w.world.array = some events ∧ Balanced (w.events ++ events)

/-- Each dense page is full, and if there is one, its blocks can be counted in an `int`. -/
def PagesFull (l : SparseArray Z α) : Prop :=
  l.count = l.densePageCount * Z.denseBlocksPerPage ∧
    (l.densePageCount = 0 ∨ Z.denseBlocksPerPage < 2 ^ 31)

/-- `Emplace` is called with fewer than 2³² elements. -/
def FewElements (w : Traced Z α) : Op α → Prop
  | .emplace _ => w.world.array.count < 2 ^ 32
  | .eraseBySparseIndex _ => True

/-! ## The operations -/

/-- The first `n` slots hold an object. -/
def below (n : Nat) : Nat → Bool := fun d => decide (d < n)

theorem update_below_succ (n : Nat) : Function.update (below n) n true = below (n + 1) := by
  funext d
  by_cases hd : d = n
  · rw [hd, Function.update_self, below, decide_eq_true (Nat.lt_succ_self n)]
  · rw [Function.update_of_ne hd, below, below]
    exact decide_eq_decide.mpr (by omega)

theorem update_below (n : Nat) : Function.update (below (n + 1)) n false = below n := by
  rw [← update_below_succ, Function.update_idem]
  exact Function.update_eq_self_iff.mpr (decide_eq_false (Nat.lt_irrefl n)).symm

theorem run_emplace_events (l : SparseArray Z α) (a : α) :
    run Lifetimes.step (below l.count) (Op.events l (.emplace a)) = some (below (l.count + 1)) := by
  have hnone : below l.count l.count = false := decide_eq_false (Nat.lt_irrefl _)
  rw [Op.events, densePosition_eq, run_cons_eq_some]
  exact ⟨_, step_construct hnone, congrArg some (update_below_succ _)⟩

/-- The element of the erased block goes, and the last one takes its place. -/
theorem run_erase_events {l : SparseArray Z α} {i d : UInt32} {n : Nat} (hcount : l.count = n + 1)
    (hlook : l.sparseBlocks.lookup i = some d) (hd : d.toNat < n + 1) :
    run Lifetimes.step (below l.count) (Op.events l (.eraseBySparseIndex i)) = some (below n) := by
  obtain ⟨hget, hdata⟩ := IndexedUnmanagedList.get_of_lookup hlook
  have hholds : below (n + 1) d.toNat = true := decide_eq_true hd
  rw [Op.events, hget, hcount]
  simp only [hdata, densePosition_eq, Nat.add_sub_cancel]
  refine run_cons_eq_some.mpr ⟨_, step_destroy hholds, ?_⟩
  split_ifs with hlast
  · rw [hlast, update_below]
    rfl
  · have hself : Function.update (Function.update (below (n + 1)) d.toNat false) d.toNat true =
        below (n + 1) := by
      rw [Function.update_idem]
      exact Function.update_eq_self_iff.mpr hholds.symm
    refine run_cons_eq_some.mpr ⟨_, step_construct (Function.update_self ..), ?_⟩
    rw [hself, run_cons_eq_some]
    exact ⟨_, step_destroy (decide_eq_true (Nat.lt_succ_self n)), congrArg some (update_below n)⟩

/-- What every operation keeps. -/
structure Tracked (w : Traced Z α) : Prop where
  represents : Represents w.world.array w.world.live
  inOrder : ∃ used freed alloc, InOrder w.world.array used freed alloc
  events : run Lifetimes.step (fun _ => false) w.events = some (below w.world.array.count)

theorem tracked_fresh (Z : SparseArraySizes) (rawDense : Nat → DenseBlock α) (rawSparse : Memory UInt32) :
    Tracked ⟨fresh Z rawDense rawSparse, []⟩ :=
  ⟨represents_empty rawDense rawSparse, ⟨0, [], [], inOrder_empty rawDense rawSparse⟩,
    congrArg some (funext fun _ => (decide_eq_false (Nat.not_lt_zero _)).symm)⟩

theorem Tracked.emplace (hN : Z.sparse.nodesPerPage ≤ 2 ^ 31) (h : Tracked w) {a : α}
    (hfew : w.world.array.count < 2 ^ 32) (hstep : tracedStep movedFrom w (.emplace a) = some w') :
    Tracked w' := by
  obtain ⟨used, freed, alloc, horder⟩ := h.inOrder
  obtain ⟨l, i, heq, -, hcount, hr, horder'⟩ := horder.emplace hN h.represents hfew a
  simp only [tracedStep, SparseArray.step, heq, Option.map_some] at hstep
  obtain rfl := Option.some.inj hstep
  refine ⟨hr, horder', ?_⟩
  rw [run_append_eq h.events, hcount]
  exact run_emplace_events _ a

theorem Tracked.erase (h : Tracked w) {i : UInt32}
    (hstep : tracedStep movedFrom w (.eraseBySparseIndex i) = some w') : Tracked w' := by
  obtain ⟨used, freed, alloc, horder⟩ := h.inOrder
  obtain ⟨world, hworld, rfl⟩ := Option.map_eq_some_iff.mp hstep
  obtain ⟨l, herase, rfl⟩ := Option.map_eq_some_iff.mp hworld
  -- The check of `EraseBySparseIndex` has passed, so the index is live.
  obtain ⟨block, hget, -⟩ := Option.bind_eq_some_iff.mp herase
  obtain ⟨a, ha⟩ : ∃ a, w.world.live i = some a := by
    refine Option.ne_none_iff_exists'.mp fun hnone => ?_
    rw [IndexedUnmanagedList.get_eq_none_iff.mpr (h.represents.lookup_eq_none_iff.mpr hnone)] at hget
    cases hget
  obtain ⟨d, hlook, -, hd, -⟩ := h.represents.exists_lookup ha
  obtain ⟨l', herase', hr⟩ := h.represents.eraseBySparseIndex (.moveConstruct movedFrom) ha
  obtain rfl := Option.some.inj (herase'.symm.trans herase)
  have hmem : i.toNat ∈ alloc := by
    obtain ⟨pf, rest, hch⟩ := horder.chains
    rw [← hch.lookup_isSome, hlook]
    rfl
  obtain ⟨hcount, horder'⟩ := eraseBySparseIndex_inOrder horder hmem herase
  refine ⟨hr, horder', ?_⟩
  rw [run_append_eq h.events]
  dsimp only
  rw [hcount]
  exact run_erase_events (by omega) hlook (by omega)

/-- Every run of operations with few elements keeps the balance so far: exactly the dense blocks in use
hold an element. -/
theorem tracked_of_run (hN : Z.sparse.nodesPerPage ≤ 2 ^ 31) {ops : List (Op α)} (h : Tracked w)
    (hfew : Meets (tracedStep movedFrom) FewElements w ops)
    (hrun : run (tracedStep movedFrom) w ops = some w') : Tracked w' := by
  refine run_invariant (P := Tracked) (fun w op w' h hfew hstep => ?_) h hfew hrun
  cases op with
  | emplace a => exact h.emplace hN hfew hstep
  | eraseBySparseIndex i => exact h.erase hstep

/-! ## The destructor -/

theorem destroyBlocks_eq {page remaining block : Nat} (hint : block + remaining < 2 ^ 31) :
    destroyBlocks Z page remaining block =
      some ((List.range' (page * Z.denseBlocksPerPage + block) remaining).map .destroy) := by
  induction remaining generalizing block with
  | zero => rfl
  | succ remaining ih =>
    rw [destroyBlocks, if_pos (by omega), ih (by omega)]
    rfl

theorem destroyBlocks_eq_none {page remaining block : Nat} (hblock : block < 2 ^ 31)
    (hint : 2 ^ 31 ≤ block + remaining) : destroyBlocks Z page remaining block = none := by
  induction remaining generalizing block with
  | zero => omega
  | succ remaining ih =>
    rw [destroyBlocks]
    split_ifs with hlt
    · rw [ih hlt (by omega)]
      rfl
    · rfl

theorem destroyPages_eq (hint : Z.denseBlocksPerPage < 2 ^ 31) (remaining page : Nat) :
    destroyPages Z remaining page = some ((List.range' (page * Z.denseBlocksPerPage)
      (remaining * Z.denseBlocksPerPage)).map .destroy) := by
  induction remaining generalizing page with
  | zero =>
    rw [Nat.zero_mul]
    rfl
  | succ remaining ih =>
    rw [destroyPages, destroyBlocks_eq (by omega), ih]
    simp only [bind, Option.bind]
    rw [← List.map_append, Nat.add_zero, Nat.succ_mul, Nat.succ_mul, Nat.add_comm (remaining * _)]
    rw [← List.range'_append_1]

/-- What the destructor of an array does. -/
theorem destructorEvents_eq (l : SparseArray Z α) : destructorEvents l =
    if l.densePageCount = 0 ∨ Z.denseBlocksPerPage < 2 ^ 31 then
      some ((List.range (l.densePageCount * Z.denseBlocksPerPage)).map .destroy)
    else none := by
  unfold destructorEvents
  split_ifs with hint
  · rcases hint with hzero | hint
    · rw [hzero, Nat.zero_mul]
      rfl
    · rw [destroyPages_eq hint, Nat.zero_mul, List.range_eq_range']
  · rw [not_or] at hint
    obtain ⟨n, hn⟩ := Nat.exists_eq_succ_of_ne_zero hint.1
    rw [hn, destroyPages, destroyBlocks_eq_none (by decide) (by omega)]
    rfl

/-- **The elements of a `SparseArray`.** In every run of operations that goes through and calls `Emplace`
with fewer than 2³² elements only, followed by the destructor, constructions and destructions balance
exactly if all dense pages are full. -/
theorem destructsBalanced_iff_pagesFull (hN : Z.sparse.nodesPerPage ≤ 2 ^ 31) (movedFrom : α → α)
    (rawDense : Nat → DenseBlock α) (rawSparse : Memory UInt32) (ops : List (Op α)) (w : Traced Z α)
    (hrun : run (tracedStep movedFrom) ⟨fresh Z rawDense rawSparse, []⟩ ops = some w)
    (hfew : Meets (tracedStep movedFrom) FewElements ⟨fresh Z rawDense rawSparse, []⟩ ops) :
    DestructsBalanced w ↔ PagesFull w.world.array := by
  have h := tracked_of_run hN (tracked_fresh Z rawDense rawSparse) hfew hrun
  have hpages := h.represents.pages
  unfold DestructsBalanced PagesFull
  rw [destructorEvents_eq]
  split_ifs with hint
  · rw [and_iff_left hint]
    simp only [Option.some.injEq, exists_eq_left', Lifetimes.Balanced]
    rw [run_append_eq h.events, run_destroy_iff]
    constructor
    · rintro ⟨-, hall, -⟩
      refine Nat.le_antisymm hpages (Nat.le_of_not_lt fun hlt => ?_)
      exact Nat.lt_irrefl _ (of_decide_eq_true (hall _ (List.mem_range.mpr hlt)))
    · intro hfull
      rw [← hfull]
      refine ⟨List.nodup_range, fun d hd => decide_eq_true (List.mem_range.mp hd), funext fun d => ?_⟩
      rw [below]
      simp
  · refine iff_of_false ?_ fun hfull => hint hfull.2
    rintro ⟨events, hnone, -⟩
    cases hnone

instance (w : Traced Z α) (op : Op α) : Decidable (FewElements w op) :=
  match op with
  | .emplace _ => inferInstanceAs (Decidable (_ < _))
  | .eraseBySparseIndex _ => inferInstanceAs (Decidable True)

/-- A new array of `twoBlockPages`. -/
def freshTwo : Traced twoBlockPages UInt32 :=
  ⟨fresh twoBlockPages (fun _ => ⟨0, 0⟩) fun _ => ⟨0, false, none, none, 0⟩, []⟩

/-- The one page is full when the array is destroyed. -/
theorem destructsBalanced_iff_pagesFull_onePage : ∃ w,
    run (tracedStep id) freshTwo [.emplace 10, .emplace 11, .eraseBySparseIndex 0, .emplace 12] =
      some w ∧ (DestructsBalanced w ↔ PagesFull w.world.array) := by
  have hsome : (run (tracedStep id) freshTwo
      [.emplace 10, .emplace 11, .eraseBySparseIndex 0, .emplace 12]).isSome = true := rfl
  obtain ⟨w, hrun⟩ := Option.isSome_iff_exists.mp hsome
  exact ⟨w, hrun, destructsBalanced_iff_pagesFull (Z := twoBlockPages) (by decide) id (fun _ => ⟨0, 0⟩)
    (fun _ => ⟨0, false, none, none, 0⟩) _ w hrun (by decide)⟩

/-- With one element in a page of two blocks, the destructor is called on a block that holds none. -/
theorem not_destructsBalanced_oneElement : ∃ w,
    run (tracedStep id) freshTwo [.emplace 10] = some w ∧ ¬ DestructsBalanced w := by
  refine ⟨_, rfl, ?_⟩
  rintro ⟨events, hevents, hbalanced⟩
  obtain rfl := Option.some.inj hevents
  cases hbalanced

end RatkiniaServer.MemoryPool.SparseArray
