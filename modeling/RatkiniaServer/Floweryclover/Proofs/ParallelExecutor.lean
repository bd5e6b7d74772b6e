import RatkiniaServer.Floweryclover.Proofs.ExecutionResults

/-!
# `ParallelFor` is a filter-map

Every index below `n` is owned by at most one worker thread: the one that has given it to the task or
has it before it in its chunk. The first chunk is empty, so the chunks drawn so far end at `workIndex_`
minus one chunk. A worker stops within a chunk that ends behind `n`, and draws no other one; so at most
that many chunks are drawn, and `workIndex_` does not overflow. The loops of `ParallelFor` over the
worker threads count in an `int`, which does.
-/

namespace RatkiniaServer.Floweryclover.ParallelExecutor

open Ring Threads Transition

variable {A R : Type} {WorkerThreadCount baseSize n : Nat} {call : Call A R}
  {s s' : State WorkerThreadCount} {w w' : Worker}

/-! ## What is claimed -/

/-- The results of all threads, as `ParallelFor` returns them. -/
def State.threadResults (s : State WorkerThreadCount) : List WorkerThreadResult :=
  (List.finRange WorkerThreadCount).map fun t => (s.worker t).result

/-- The indices that the worker threads have given to the task, thread by thread. -/
def State.given (s : State WorkerThreadCount) : List Nat :=
  (List.finRange WorkerThreadCount).flatMap fun t => (s.worker t).given

/-- What `ParallelFor` leaves behind when it returns. -/
structure Correct (call : Call A R) (n : Nat) (s : State WorkerThreadCount) : Prop where
  /-- Every index is given to the task exactly once. -/
  given_perm : s.given.Perm (List.range n)
  /-- Each worker goes through its indices in increasing order. -/
  increasing : ∀ t, (s.worker t).given.Pairwise (· < ·)
  /-- The iteration yields the results of each worker in the order of its indices. -/
  iterated : ∃ fuel,
    iterate call.copyable s.threadResults fuel (Iterator.begin s.threadResults) =
      some ((List.finRange WorkerThreadCount).flatMap fun t =>
        (s.worker t).given.filterMap call.resultOf)
  /-- These are all results. -/
  results_perm : ((List.finRange WorkerThreadCount).flatMap fun t =>
    (s.worker t).given.filterMap call.resultOf).Perm ((List.range n).filterMap call.resultOf)
  /-- The worker threads wait for the next call. -/
  waiting : ∀ t, (s.worker t).pc = .waiting ∧ (s.worker t).workingFlag = false

/-- From every state that earlier calls may have left, whatever the order of the steps: no undefined
behaviour comes up, there is a next step until `ParallelFor` returns, which it does after a bounded
number of steps, and what it returns is the filter-map. -/
def EqualsFilterMap (WorkerThreadCount baseSize : Nat) (call : Call A R) (n : Nat) : Prop :=
  ∀ s₀ : State WorkerThreadCount, Called s₀ →
    (∀ as s, run (step baseSize call) s₀ as = some s →
      s.main ≠ .overflow ∧ (s.main ≠ .returned → ∃ a s', step baseSize call s a = some s') ∧
        (s.main = .returned → Correct call n s)) ∧
    ∃ bound, ∀ as s, run (step baseSize call) s₀ as = some s → as.length ≤ bound

/-! ## The invariant -/

/-- The index is in what the worker still has to do of its chunk. -/
def Worker.Pending (w : Worker) (j : Nat) : Prop :=
  ∃ workEnd i, w.pc = .looping workEnd i ∧ i ≤ j ∧ j < workEnd

/-- The index is with the worker. -/
def Worker.Owns (w : Worker) (j : Nat) : Prop := j ∈ w.given ∨ w.Pending j

/-- The worker has drawn a chunk that ends behind `n`. -/
def Worker.last (n : Nat) (w : Worker) : Bool :=
  match w.pc with
  | .waiting => w.finished
  | .fetching => false
  | .looping workEnd _ => decide (n < workEnd)
  | .finishing => true

/-- A worker that has not been woken up in this call. -/
structure Worker.Fresh (w : Worker) : Prop where
  pc_eq : w.pc = .waiting
  flag_eq : w.workingFlag = false
  given_eq : w.given = []
  unfinished : w.finished = false

/-- Where a worker is that has been woken up. -/
def Worker.At (call : Call A R) (n workIndex : Nat) (w : Worker) : Prop :=
  match w.pc with
  | .waiting =>
    (w.workingFlag = true ∧ w.finished = false) ∨
      (w.workingFlag = false ∧ w.finished = true ∧ n + call.chunkSize < workIndex)
  | .fetching => w.workingFlag = true
  | .looping workEnd i =>
    w.workingFlag = true ∧ workEnd + call.chunkSize ≤ workIndex ∧
      (workEnd = 0 ∨ (workEnd ≤ i + call.chunkSize ∧ i ≤ workEnd ∧
        (i ≤ n ∨ i + call.chunkSize = workEnd) ∧ ∀ j ∈ w.given, j < i))
  | .finishing => w.workingFlag = true ∧ n + call.chunkSize < workIndex

/-- What holds of a worker that has been woken up: where it is, and what it has done so far. -/
structure WorkerInv (call : Call A R) (n workIndex : Nat) (w : Worker) : Prop where
  at_pc : w.At call n workIndex
  increasing : w.given.Pairwise (· < ·)
  below : ∀ j ∈ w.given, j < n ∧ j + call.chunkSize < workIndex
  fits : w.result.Fits call.copyable
  values_eq : w.result.values call.copyable = w.given.filterMap call.resultOf

/-- How the workers share the indices. -/
structure Shares (call : Call A R) (n : Nat) (s : State WorkerThreadCount) : Prop where
  start : s.workIndex = 0 ∨ call.chunkSize ≤ s.workIndex
  bound : s.workIndex ≤ n + (1 + count (Worker.last n) s.worker) * call.chunkSize
  cover : ∀ j < n, j + call.chunkSize < s.workIndex → ∃ t, (s.worker t).Owns j
  disjoint : ∀ t t' j, (s.worker t).Owns j → (s.worker t').Owns j → t = t'

/-- The number of workers that have been woken up. -/
def MainPc.started (WorkerThreadCount : Nat) : MainPc → Nat
  | .storeIndex | .overflow => 0
  | .reset i | .notify i => i
  | .wait _ | .returned => WorkerThreadCount

/-- Where the calling thread is, and which flags it has seen to be false. -/
def MainInv (s : State WorkerThreadCount) : Prop :=
  match s.main with
  | .storeIndex | .overflow => False
  | .reset _ => True
  | .notify i => ∃ h : i < WorkerThreadCount, (s.worker ⟨i, h⟩).result.elementCount = 0
  | .wait i => ∀ t, t.val < i → (s.worker t).workingFlag = false
  | .returned => ∀ t, (s.worker t).workingFlag = false

/-- A worker is as it has to be when the first `started` workers have been woken up. -/
def WorkerOk (call : Call A R) (n workIndex started : Nat) (t : Fin WorkerThreadCount)
    (w : Worker) : Prop :=
  (t.val < started → WorkerInv call n workIndex w) ∧ (started ≤ t.val → w.Fresh)

structure Inv (call : Call A R) (n : Nat) (s : State WorkerThreadCount) : Prop where
  main : MainInv s
  shares : Shares call n s
  worker : ∀ t, WorkerOk call n s.workIndex (s.main.started WorkerThreadCount) t (s.worker t)

/-! ## The steps of a worker -/

/-- The worker has given the axis of `i` to the task and appended the result, if any. -/
structure Worker.Gave (call : Call A R) (w w' : Worker) (workEnd i : Nat) : Prop where
  axis : (call.getAxis i).isSome = true
  pc_eq : w'.pc = .looping workEnd ((i + 1) % 2 ^ 32)
  flag_eq : w'.workingFlag = w.workingFlag
  given_eq : w'.given = w.given ++ [i]
  fits : w'.result.Fits call.copyable
  values_eq : w'.result.values call.copyable =
    w.result.values call.copyable ++ (call.resultOf i).toList

/-- What a worker does with an index: it stops, or it gives the axis to the task. -/
theorem work_spec (hbase : 1 ≤ baseSize) (hfits : w.result.Fits call.copyable) (workEnd i : Nat) :
    ∃ w', w.work baseSize call workEnd i = some w' ∧
      ((call.getAxis i = none ∧ w' = { w with pc := .finishing }) ∨ w.Gave call w' workEnd i) := by
  unfold Worker.work
  cases haxis : call.getAxis i with
  | none => exact ⟨_, rfl, Or.inl ⟨rfl, rfl⟩⟩
  | some axis =>
    have hsome : (call.getAxis i).isSome = true := by rw [haxis, Option.isSome_some]
    cases htask : call.task axis with
    | none =>
      refine ⟨{ w with pc := .looping workEnd ((i + 1) % 2 ^ 32), given := w.given ++ [i] }, ?_,
        Or.inr ⟨hsome, rfl, rfl, rfl, hfits, ?_⟩⟩
      · simp only [htask]
      · simp [Call.resultOf, haxis, htask]
    | some result =>
      obtain ⟨r, happend, hfits', hvalues⟩ := WorkerThreadResult.append_spec hbase hfits result
      refine ⟨{ w with
        pc := .looping workEnd ((i + 1) % 2 ^ 32), given := w.given ++ [i], result := r }, ?_,
        Or.inr ⟨hsome, rfl, rfl, rfl, hfits', ?_⟩⟩
      · simp only [htask, happend, Option.map_some]
      · simp [Call.resultOf, haxis, htask, hvalues]

/-- The steps of a worker, by where it is. -/
theorem stepWorker_cases {t : Fin WorkerThreadCount}
    (hstep : stepWorker baseSize call s t = some s') :
    ((s.worker t).pc = .waiting ∧ (s.worker t).workingFlag = true ∧
      s' = { s with worker := Function.update s.worker t { s.worker t with pc := .fetching } }) ∨
    ((s.worker t).pc = .fetching ∧ s' = { s with
      workIndex := (s.workIndex + call.chunkSize) % 2 ^ 32
      worker := Function.update s.worker t { s.worker t with
        pc := .looping s.workIndex
          ((s.workIndex + 2 ^ 64 - call.chunkSize) % 2 ^ 64 % 2 ^ 32) } }) ∨
    (∃ workEnd i w', (s.worker t).pc = .looping workEnd i ∧ i < workEnd ∧
      (s.worker t).work baseSize call workEnd i = some w' ∧
      s' = { s with worker := Function.update s.worker t w' }) ∨
    (∃ workEnd i, (s.worker t).pc = .looping workEnd i ∧ workEnd ≤ i ∧
      s' = { s with worker := Function.update s.worker t { s.worker t with pc := .fetching } }) ∨
    ((s.worker t).pc = .finishing ∧ s' = { s with
      worker := Function.update s.worker t
        { s.worker t with pc := .waiting, workingFlag := false, finished := true } }) := by
  unfold stepWorker at hstep
  cases hpc : (s.worker t).pc with
  | waiting =>
    simp only [hpc] at hstep
    split_ifs at hstep with hflag
    exact Or.inl ⟨rfl, hflag, (Option.some.inj hstep).symm⟩
  | fetching =>
    simp only [hpc] at hstep
    exact Or.inr (Or.inl ⟨rfl, (Option.some.inj hstep).symm⟩)
  | looping workEnd i =>
    simp only [hpc] at hstep
    split_ifs at hstep with hlt
    · obtain ⟨w', hw', hs'⟩ := Option.map_eq_some_iff.mp hstep
      exact Or.inr (Or.inr (Or.inl ⟨workEnd, i, w', rfl, hlt, hw', hs'.symm⟩))
    · exact Or.inr (Or.inr (Or.inr (Or.inl
        ⟨workEnd, i, rfl, Nat.le_of_not_lt hlt, (Option.some.inj hstep).symm⟩)))
  | finishing =>
    simp only [hpc] at hstep
    exact Or.inr (Or.inr (Or.inr (Or.inr ⟨rfl, (Option.some.inj hstep).symm⟩)))

/-! ## What a step does to a worker -/

theorem pending_iff {workEnd i j : Nat} (hpc : w.pc = .looping workEnd i) :
    w.Pending j ↔ i ≤ j ∧ j < workEnd := by
  constructor
  · rintro ⟨workEnd', i', hpc', hj⟩
    obtain ⟨rfl, rfl⟩ := WorkerPc.looping.inj (hpc.symm.trans hpc')
    exact hj
  · intro hj
    exact ⟨workEnd, i, hpc, hj⟩

theorem not_pending {j : Nat} (hpc : ∀ workEnd i, w.pc ≠ .looping workEnd i) : ¬ w.Pending j := by
  rintro ⟨workEnd, i, hpc', -⟩
  exact hpc workEnd i hpc'

/-- Outside of its chunk a worker owns what it has given to the task. -/
theorem owns_iff {j : Nat} (hpc : ∀ workEnd i, w.pc ≠ .looping workEnd i) :
    w.Owns j ↔ j ∈ w.given :=
  or_iff_left (not_pending hpc)

/-- Every index of a worker is in a chunk that has been drawn. -/
theorem WorkerInv.lt_of_owns {workIndex j : Nat} (h : WorkerInv call n workIndex w) (hj : w.Owns j) :
    j + call.chunkSize < workIndex := by
  rcases hj with hj | ⟨workEnd, i, hpc, -, hlt⟩
  · exact (h.below j hj).2
  · have hat := h.at_pc
    rw [Worker.At, hpc] at hat
    obtain ⟨-, hle, -⟩ := hat
    omega

/-- What holds of a worker still does when others have drawn chunks. -/
theorem WorkerInv.mono {workIndex workIndex' : Nat} (h : WorkerInv call n workIndex w)
    (hle : workIndex ≤ workIndex') : WorkerInv call n workIndex' w := by
  have hat := h.at_pc
  refine ⟨?_, h.increasing, fun j hj => ?_, h.fits, h.values_eq⟩
  · unfold Worker.At at hat ⊢
    cases hpc : w.pc with
    | waiting =>
      rw [hpc] at hat
      exact hat.imp_right fun ⟨hflag, hfinished, hlt⟩ =>
        ⟨hflag, hfinished, Nat.lt_of_lt_of_le hlt hle⟩
    | fetching =>
      rw [hpc] at hat
      exact hat
    | looping workEnd i =>
      rw [hpc] at hat
      obtain ⟨hflag, hend, hloop⟩ := hat
      exact ⟨hflag, Nat.le_trans hend hle, hloop⟩
    | finishing =>
      rw [hpc] at hat
      exact ⟨hat.1, Nat.lt_of_lt_of_le hat.2 hle⟩
  · obtain ⟨hn, hlt⟩ := h.below j hj
    exact ⟨hn, Nat.lt_of_lt_of_le hlt hle⟩

/-- A bound on the steps that a worker makes before it draws the next chunk or waits again. -/
def Worker.measure (w : Worker) : Nat :=
  match w.pc with
  | .waiting => if w.workingFlag then 3 else 0
  | .fetching => 2
  | .looping workEnd i => workEnd - i + 3
  | .finishing => 1

/-- A step of a worker that draws no chunk. It keeps its indices below `n`. -/
structure Worker.Moves (call : Call A R) (n workIndex : Nat) (w w' : Worker) : Prop where
  inv : WorkerInv call n workIndex w'
  owns_of : ∀ j, w'.Owns j → w.Owns j
  owns : ∀ j < n, w.Owns j → w'.Owns j
  last_eq : w'.last n = w.last n
  measure_lt : w'.measure < w.measure

section Moves

variable {workIndex workEnd i : Nat}

/-- A worker leaves its wait for the flag. -/
theorem WorkerInv.wake (h : WorkerInv call n workIndex w) (hpc : w.pc = .waiting)
    (hflag : w.workingFlag = true) : w.Moves call n workIndex { w with pc := .fetching } := by
  have hat := h.at_pc
  rw [Worker.At, hpc] at hat
  have hunfinished : w.finished = false := by
    rcases hat with ⟨-, hfinished⟩ | ⟨hoff, -⟩
    · exact hfinished
    · rw [hflag] at hoff
      cases hoff
  have howns (j : Nat) : ({ w with pc := .fetching } : Worker).Owns j ↔ w.Owns j := by
    rw [owns_iff (by simp), owns_iff (by simp [hpc])]
  refine ⟨⟨hflag, h.increasing, h.below, h.fits, h.values_eq⟩, fun j => (howns j).mp,
    fun j _ => (howns j).mpr, ?_, ?_⟩
  · simp [Worker.last, hpc, hunfinished]
  · simp [Worker.measure, hpc, hflag]

/-- A worker gives the next index of its chunk to the task, or stops at an index without an axis. -/
theorem WorkerInv.work (h : WorkerInv call n workIndex w) (hbase : 1 ≤ baseSize)
    (hsize : workIndex < 2 ^ 32) (haxis : ∀ i < 2 ^ 32, (call.getAxis i).isSome = true ↔ i < n)
    (hpc : w.pc = .looping workEnd i) (hlt : i < workEnd)
    (hwork : w.work baseSize call workEnd i = some w') : w.Moves call n workIndex w' := by
  have hat := h.at_pc
  rw [Worker.At, hpc] at hat
  obtain ⟨hflag, hend, hloop⟩ := hat
  obtain ⟨hbegin, -, -, hgiven⟩ := hloop.resolve_left (by omega)
  obtain ⟨w'', hwork', hcases⟩ := work_spec hbase h.fits workEnd i
  obtain rfl : w' = w'' := Option.some.inj (hwork.symm.trans hwork')
  have hi := haxis i (by omega)
  rcases hcases with ⟨hnone, rfl⟩ | hgave
  · -- the index is at least `n`, and so are those behind it
    have hn : n ≤ i := by
      rw [hnone, Option.isSome_none, Bool.false_eq_true, false_iff] at hi
      exact Nat.le_of_not_lt hi
    refine ⟨⟨⟨hflag, by omega⟩, h.increasing, h.below, h.fits, h.values_eq⟩, fun j hj => ?_,
      fun j hj howns => ?_, ?_, ?_⟩
    · have hmem := (owns_iff (by simp)).mp hj
      exact Or.inl hmem
    · rw [owns_iff (by simp)]
      refine howns.resolve_right fun hpending => ?_
      have hle := ((pending_iff hpc).mp hpending).1
      omega
    · simp only [Worker.last, hpc]
      exact (decide_eq_true (by omega)).symm
    · simp [Worker.measure, hpc]
  · have hn := hi.mp hgave.axis
    have hmod : (i + 1) % 2 ^ 32 = i + 1 := Nat.mod_eq_of_lt (by omega)
    have hpc' := hgave.pc_eq
    rw [hmod] at hpc'
    have howns (j : Nat) : w'.Owns j ↔ w.Owns j := by
      unfold Worker.Owns
      rw [pending_iff hpc, pending_iff hpc', hgave.given_eq, List.mem_append, List.mem_singleton,
        or_assoc]
      refine or_congr_right ?_
      omega
    refine ⟨⟨?_, ?_, ?_, hgave.fits, ?_⟩, fun j => (howns j).mp, fun j _ => (howns j).mpr, ?_, ?_⟩
    · rw [Worker.At, hpc']
      refine ⟨hgave.flag_eq.trans hflag, hend, Or.inr ⟨by omega, hlt, Or.inl hn, fun j hj => ?_⟩⟩
      rw [hgave.given_eq] at hj
      rcases List.mem_append.mp hj with hj | hj
      · exact Nat.lt_succ_of_lt (hgiven j hj)
      · rw [List.mem_singleton.mp hj]
        exact Nat.lt_succ_self i
    · rw [hgave.given_eq, List.pairwise_append]
      refine ⟨h.increasing, List.pairwise_singleton _ _, fun j hj k hk => ?_⟩
      rw [List.mem_singleton.mp hk]
      exact hgiven j hj
    · intro j hj
      rw [hgave.given_eq] at hj
      rcases List.mem_append.mp hj with hj | hj
      · exact h.below j hj
      · rw [List.mem_singleton.mp hj]
        exact ⟨hn, by omega⟩
    · rw [hgave.values_eq, hgave.given_eq, h.values_eq, List.filterMap_append]
      congr 1
    · simp only [Worker.last, hpc, hpc']
    · simp only [Worker.measure, hpc, hpc']
      omega

/-- A worker is done with its chunk, which therefore does not end behind `n`. -/
theorem WorkerInv.nextChunk (h : WorkerInv call n workIndex w) (hchunk : 1 ≤ call.chunkSize)
    (hpc : w.pc = .looping workEnd i) (hle : workEnd ≤ i) :
    w.Moves call n workIndex { w with pc := .fetching } := by
  have hat := h.at_pc
  rw [Worker.At, hpc] at hat
  obtain ⟨hflag, hend, hloop⟩ := hat
  have hn : workEnd ≤ n := by omega
  have hnone (j : Nat) : ¬ w.Pending j := by
    rw [pending_iff hpc]
    omega
  have howns (j : Nat) : ({ w with pc := .fetching } : Worker).Owns j ↔ w.Owns j := by
    rw [owns_iff (by simp)]
    exact (or_iff_left (hnone j)).symm
  refine ⟨⟨hflag, h.increasing, h.below, h.fits, h.values_eq⟩, fun j => (howns j).mp,
    fun j _ => (howns j).mpr, ?_, ?_⟩
  · simp only [Worker.last, hpc]
    exact (decide_eq_false (by omega)).symm
  · simp only [Worker.measure, hpc]
    omega

/-- A worker stores the flag. -/
theorem WorkerInv.finish (h : WorkerInv call n workIndex w) (hpc : w.pc = .finishing) :
    w.Moves call n workIndex { w with pc := .waiting, workingFlag := false, finished := true } := by
  have hat := h.at_pc
  rw [Worker.At, hpc] at hat
  have howns (j : Nat) : ({ w with pc := .waiting, workingFlag := false, finished := true } :
      Worker).Owns j ↔ w.Owns j := by
    rw [owns_iff (by simp), owns_iff (by simp [hpc])]
  refine ⟨⟨Or.inr ⟨rfl, rfl, hat.2⟩, h.increasing, h.below, h.fits, h.values_eq⟩,
    fun j => (howns j).mp, fun j _ => (howns j).mpr, ?_, ?_⟩
  · simp [Worker.last, hpc]
  · simp [Worker.measure, hpc]

end Moves

/-! ## What a step does to the sharing -/

/-- A change at one worker that keeps what the worker owns below `n`. -/
theorem Shares.update (h : Shares call n s) {t : Fin WorkerThreadCount} (main : MainPc)
    (howns_of : ∀ j, w'.Owns j → (s.worker t).Owns j)
    (howns : ∀ j < n, (s.worker t).Owns j → w'.Owns j)
    (hlast : w'.last n = (s.worker t).last n) :
    Shares call n { s with main := main, worker := Function.update s.worker t w' } := by
  have hold (t' : Fin WorkerThreadCount) (j : Nat)
      (hj : (Function.update s.worker t w' t').Owns j) : (s.worker t').Owns j := by
    rcases eq_or_ne t' t with rfl | hne
    · rw [Function.update_self] at hj
      exact howns_of j hj
    · rwa [Function.update_of_ne hne] at hj
  refine ⟨h.start, ?_, fun j hj hlt => ?_,
    fun t₁ t₂ j h₁ h₂ => h.disjoint t₁ t₂ j (hold t₁ j h₁) (hold t₂ j h₂)⟩
  · show s.workIndex ≤ _
    rw [count_move hlast]
    exact h.bound
  · obtain ⟨t', ht'⟩ := h.cover j hj hlt
    refine ⟨t', ?_⟩
    show (Function.update s.worker t w' t').Owns j
    rcases eq_or_ne t' t with rfl | hne
    · rw [Function.update_self]
      exact howns j hj ht'
    · rwa [Function.update_of_ne hne]

theorem Shares.workIndex_le (h : Shares call n s) :
    s.workIndex ≤ n + (WorkerThreadCount + 1) * call.chunkSize := by
  have hcount : count (Worker.last n) s.worker ≤ WorkerThreadCount :=
    (Finset.card_filter_le _ _).trans_eq (by simp)
  have hmul := Nat.mul_le_mul_right call.chunkSize
    (show 1 + count (Worker.last n) s.worker ≤ WorkerThreadCount + 1 by omega)
  have hbound := h.bound
  omega

/-- There is room for a chunk, if a worker has not drawn its last one. -/
theorem Shares.add_le (h : Shares call n s) {t : Fin WorkerThreadCount}
    (hlast : (s.worker t).last n = false) :
    s.workIndex + call.chunkSize ≤ n + (WorkerThreadCount + 1) * call.chunkSize := by
  have hcount := count_lt_card hlast
  rw [Fintype.card_fin] at hcount
  have hmul := Nat.mul_le_mul_right call.chunkSize
    (show 1 + count (Worker.last n) s.worker ≤ WorkerThreadCount by omega)
  have hbound := h.bound
  rw [Nat.succ_mul]
  omega

/-- A worker draws a chunk. -/
theorem Shares.fetch (h : Shares call n s) {t : Fin WorkerThreadCount}
    (hlt : ∀ t j, (s.worker t).Owns j → j + call.chunkSize < s.workIndex)
    (hpc : (s.worker t).pc = .fetching) {i : Nat}
    (hi : s.workIndex = 0 ∨ i + call.chunkSize = s.workIndex) :
    Shares call n { s with
      workIndex := s.workIndex + call.chunkSize
      worker := Function.update s.worker t
        { s.worker t with pc := .looping s.workIndex i } } := by
  have hlast : (s.worker t).last n = false := by
    simp only [Worker.last, hpc]
  have hlast' : ({ s.worker t with pc := .looping s.workIndex i } : Worker).last n =
      decide (n < s.workIndex) := rfl
  have hgiven (j : Nat) : (s.worker t).Owns j ↔ j ∈ (s.worker t).given :=
    owns_iff (by simp [hpc])
  have hnew (j : Nat) : ({ s.worker t with pc := .looping s.workIndex i } : Worker).Owns j ↔
      (s.worker t).Owns j ∨ (i ≤ j ∧ j < s.workIndex) := by
    rw [hgiven]
    exact or_congr_right (pending_iff rfl)
  refine ⟨Or.inr (Nat.le_add_left _ _), ?_, fun j hj hjlt => ?_, ?_⟩
  · show s.workIndex + call.chunkSize ≤ _
    by_cases hn : n < s.workIndex
    · rw [count_enter hlast (hlast'.trans (decide_eq_true hn)), ← Nat.add_assoc, Nat.succ_mul]
      have hbound := h.bound
      omega
    · rw [count_move (hlast'.trans ((decide_eq_false hn).trans hlast.symm)), Nat.add_mul, Nat.one_mul]
      omega
  · have hjlt' : j < s.workIndex := Nat.lt_of_add_lt_add_right hjlt
    by_cases hold : j + call.chunkSize < s.workIndex
    · obtain ⟨t', ht'⟩ := h.cover j hj hold
      refine ⟨t', ?_⟩
      show (Function.update s.worker t _ t').Owns j
      rcases eq_or_ne t' t with rfl | hne
      · rw [Function.update_self, hnew]
        exact Or.inl ht'
      · rwa [Function.update_of_ne hne]
    · refine ⟨t, ?_⟩
      show (Function.update s.worker t _ t).Owns j
      rw [Function.update_self, hnew]
      exact Or.inr ⟨by omega, hjlt'⟩
  · -- the chunk is behind everything that is owned
    have hcases (t' : Fin WorkerThreadCount) (j : Nat) (hj : (Function.update s.worker t
        { s.worker t with pc := .looping s.workIndex i } t').Owns j) :
        (s.worker t').Owns j ∨ (t' = t ∧ s.workIndex ≤ j + call.chunkSize) := by
      rcases eq_or_ne t' t with rfl | hne
      · rw [Function.update_self, hnew] at hj
        exact hj.imp_right fun hj => ⟨rfl, by omega⟩
      · rw [Function.update_of_ne hne] at hj
        exact Or.inl hj
    intro t₁ t₂ j h₁ h₂
    rcases hcases t₁ j h₁ with hold₁ | ⟨rfl, hge₁⟩
    · rcases hcases t₂ j h₂ with hold₂ | ⟨rfl, hge₂⟩
      · exact h.disjoint t₁ t₂ j hold₁ hold₂
      · have hlt₁ := hlt t₁ j hold₁
        omega
    · rcases hcases t₂ j h₂ with hold₂ | ⟨rfl, -⟩
      · have hlt₂ := hlt t₂ j hold₂
        omega
      · rfl

/-! ## Steps -/

/-- How far the calling thread is from its return, where `maxIndex` bounds `workIndex_`. -/
def MainPc.measure (WorkerThreadCount maxIndex : Nat) : MainPc → Nat
  | .storeIndex => 3 * maxIndex + WorkerThreadCount * 6 + 3
  | .reset i => (WorkerThreadCount - i) * 5 + WorkerThreadCount + 2
  | .notify i => (WorkerThreadCount - i) * 5 + WorkerThreadCount + 1
  | .wait i => WorkerThreadCount - i + 1
  | .returned | .overflow => 0

/-- A bound on the steps that are left. -/
def State.measure (maxIndex : Nat) (s : State WorkerThreadCount) : Nat :=
  s.main.measure WorkerThreadCount maxIndex + 3 * (maxIndex - s.workIndex) +
    ∑ t, (s.worker t).measure

/-- The bound on `workIndex_`. -/
def maxIndex (WorkerThreadCount : Nat) (call : Call A R) (n : Nat) : Nat :=
  n + (WorkerThreadCount + 1) * call.chunkSize

/-- A step to a state with the invariant, closer to the return. -/
structure Advances (call : Call A R) (n : Nat) (s s' : State WorkerThreadCount) : Prop where
  inv : Inv call n s'
  measure_lt : s'.measure (maxIndex WorkerThreadCount call n) <
    s.measure (maxIndex WorkerThreadCount call n)

/-- How a change of the calling thread, of `workIndex_` and of one worker moves the measure. -/
theorem State.measure_update (s : State WorkerThreadCount) (m : Nat) (main : MainPc) (v : Nat)
    (t : Fin WorkerThreadCount) (w' : Worker) :
    State.measure m ⟨main, v, Function.update s.worker t w'⟩ + s.main.measure WorkerThreadCount m +
        (s.worker t).measure + 3 * (m - s.workIndex) =
      s.measure m + main.measure WorkerThreadCount m + w'.measure + 3 * (m - v) := by
  have hsum := sum_update Worker.measure s.worker t w'
  simp only [State.measure]
  omega

/-- A worker of which the flag is false is done: it has found an index without an axis in a chunk that
has been drawn. -/
theorem WorkerInv.of_flag {workIndex : Nat} (h : WorkerInv call n workIndex w)
    (hflag : w.workingFlag = false) : w.pc = .waiting ∧ n + call.chunkSize < workIndex := by
  have hat := h.at_pc
  unfold Worker.At at hat
  cases hpc : w.pc with
  | waiting =>
    rw [hpc, hflag] at hat
    rcases hat with ⟨hon, -⟩ | ⟨-, -, hlt⟩
    · cases hon
    · exact ⟨rfl, hlt⟩
  | fetching =>
    rw [hpc, hflag] at hat
    cases hat
  | looping workEnd i =>
    rw [hpc, hflag] at hat
    cases hat.1
  | finishing =>
    rw [hpc, hflag] at hat
    cases hat.1

theorem WorkerInv.measure_eq_zero {workIndex : Nat} (h : WorkerInv call n workIndex w)
    (hflag : w.workingFlag = false) : w.measure = 0 := by
  simp [Worker.measure, (h.of_flag hflag).1, hflag]

theorem Worker.Fresh.measure_eq_zero (h : w.Fresh) : w.measure = 0 := by
  simp [Worker.measure, h.pc_eq, h.flag_eq]

theorem Worker.Fresh.not_owns (h : w.Fresh) (j : Nat) : ¬ w.Owns j := by
  rw [owns_iff (by simp [h.pc_eq]), h.given_eq]
  exact List.not_mem_nil

namespace Inv

theorem lt_of_owns (h : Inv call n s) (t : Fin WorkerThreadCount) (j : Nat)
    (hj : (s.worker t).Owns j) : j + call.chunkSize < s.workIndex := by
  by_cases ht : t.val < s.main.started WorkerThreadCount
  · exact ((h.worker t).1 ht).lt_of_owns hj
  · exact absurd hj (((h.worker t).2 (Nat.le_of_not_lt ht)).not_owns j)

/-- A worker that moves has been woken up. -/
theorem working (h : Inv call n s) {t : Fin WorkerThreadCount} (hpos : 0 < (s.worker t).measure) :
    WorkerInv call n s.workIndex (s.worker t) ∧ t.val < s.main.started WorkerThreadCount ∧
      (s.worker t).workingFlag = true := by
  have ht : t.val < s.main.started WorkerThreadCount := by
    by_contra hge
    have hzero := ((h.worker t).2 (Nat.le_of_not_lt hge)).measure_eq_zero
    omega
  have hinv := (h.worker t).1 ht
  refine ⟨hinv, ht, ?_⟩
  cases hflag : (s.worker t).workingFlag with
  | true => rfl
  | false =>
    have hzero := hinv.measure_eq_zero hflag
    omega

/-- What the calling thread knows is not about a worker that works. -/
theorem main_update (h : Inv call n s) {t : Fin WorkerThreadCount} (v : Nat) (w' : Worker)
    (hpos : 0 < (s.worker t).measure) :
    MainInv { s with workIndex := v, worker := Function.update s.worker t w' } := by
  obtain ⟨-, ht, hflag⟩ := h.working hpos
  have hmain := h.main
  have hother (t' : Fin WorkerThreadCount) (hoff : (s.worker t').workingFlag = false) :
      (Function.update s.worker t w' t').workingFlag = false := by
    have hne : t' ≠ t := by
      rintro rfl
      rw [hflag] at hoff
      cases hoff
    rwa [Function.update_of_ne hne]
  unfold MainInv at hmain ⊢
  dsimp only
  cases hpc : s.main with
  | storeIndex =>
    rw [hpc] at hmain
    exact hmain
  | overflow =>
    rw [hpc] at hmain
    exact hmain
  | reset i => trivial
  | notify i =>
    rw [hpc] at hmain ht
    obtain ⟨hi, hcount⟩ := hmain
    refine ⟨hi, ?_⟩
    have hne : (⟨i, hi⟩ : Fin WorkerThreadCount) ≠ t := by
      rintro rfl
      exact Nat.lt_irrefl i ht
    rw [Function.update_of_ne hne]
    exact hcount
  | wait i =>
    rw [hpc] at hmain
    exact fun t' ht' => hother t' (hmain t' ht')
  | returned =>
    rw [hpc] at hmain
    exact fun t' => hother t' (hmain t')

/-- The workers after a step of one that has been woken up. -/
theorem worker_update (h : Inv call n s) {t : Fin WorkerThreadCount} {v : Nat}
    (hv : s.workIndex ≤ v) (ht : t.val < s.main.started WorkerThreadCount)
    (hw : WorkerInv call n v w') (t' : Fin WorkerThreadCount) :
    WorkerOk call n v (s.main.started WorkerThreadCount) t' (Function.update s.worker t w' t') := by
  refine forall_update (A := fun t' => WorkerOk call n v (s.main.started WorkerThreadCount) t')
    (fun t' _ => ⟨fun hlt => ((h.worker t').1 hlt).mono hv, (h.worker t').2⟩)
    ⟨fun _ => hw, fun hge => ?_⟩ t'
  exact absurd ht (Nat.not_lt.mpr hge)

/-- A step of a worker that draws no chunk. -/
theorem moves (h : Inv call n s) {t : Fin WorkerThreadCount}
    (hmoves : (s.worker t).Moves call n s.workIndex w') :
    Advances call n s { s with worker := Function.update s.worker t w' } := by
  have hlt := hmoves.measure_lt
  have hpos : 0 < (s.worker t).measure := Nat.zero_lt_of_lt hlt
  obtain ⟨-, ht, -⟩ := h.working hpos
  refine ⟨⟨h.main_update s.workIndex w' hpos,
    h.shares.update s.main hmoves.owns_of hmoves.owns hmoves.last_eq,
    h.worker_update (Nat.le_refl _) ht hmoves.inv⟩, ?_⟩
  have hsum := s.measure_update (maxIndex WorkerThreadCount call n) s.main s.workIndex t w'
  omega

/-- A worker draws a chunk. -/
theorem fetch (h : Inv call n s) {t : Fin WorkerThreadCount} (hchunk : 1 ≤ call.chunkSize)
    (hsize : maxIndex WorkerThreadCount call n < 2 ^ 32) (hpc : (s.worker t).pc = .fetching)
    (hs' : s' = { s with
      workIndex := (s.workIndex + call.chunkSize) % 2 ^ 32
      worker := Function.update s.worker t { s.worker t with
        pc := .looping s.workIndex ((s.workIndex + 2 ^ 64 - call.chunkSize) % 2 ^ 64 % 2 ^ 32) } }) :
    Advances call n s s' := by
  have hmeasure : (s.worker t).measure = 2 := by simp only [Worker.measure, hpc]
  have hpos : 0 < (s.worker t).measure := by omega
  obtain ⟨hinv, ht, hflag⟩ := h.working hpos
  have hroom := h.shares.add_le (t := t) (by simp only [Worker.last, hpc])
  have hadd : (s.workIndex + call.chunkSize) % 2 ^ 32 = s.workIndex + call.chunkSize := by
    refine Nat.mod_eq_of_lt ?_
    unfold maxIndex at hsize
    omega
  -- the chunk is empty at first, and then the one before the index drawn
  have hbegin : s.workIndex = 0 ∨
      (s.workIndex + 2 ^ 64 - call.chunkSize) % 2 ^ 64 % 2 ^ 32 + call.chunkSize = s.workIndex := by
    unfold maxIndex at hsize
    refine h.shares.start.imp_right fun hle => ?_
    omega
  generalize (s.workIndex + 2 ^ 64 - call.chunkSize) % 2 ^ 64 % 2 ^ 32 = i at hbegin hs'
  rw [hadd] at hs'
  subst hs'
  have hnew : WorkerInv call n (s.workIndex + call.chunkSize)
      { s.worker t with pc := .looping s.workIndex i } := by
    refine ⟨⟨hflag, Nat.le_refl _, hbegin.imp_right fun heq => ?_⟩, hinv.increasing, fun j hj => ?_,
      hinv.fits, hinv.values_eq⟩
    · refine ⟨by omega, by omega, Or.inr heq, fun j hj => ?_⟩
      have hlt := (hinv.below j hj).2
      omega
    · obtain ⟨hn, hlt⟩ := hinv.below j hj
      exact ⟨hn, by omega⟩
  refine ⟨⟨h.main_update _ _ hpos, h.shares.fetch h.lt_of_owns hpc hbegin,
    h.worker_update (Nat.le_add_right _ _) ht hnew⟩, ?_⟩
  have hsum := s.measure_update (maxIndex WorkerThreadCount call n) s.main
    (s.workIndex + call.chunkSize) t { s.worker t with pc := .looping s.workIndex i }
  have hnewMeasure : ({ s.worker t with pc := .looping s.workIndex i } : Worker).measure =
      s.workIndex - i + 3 := rfl
  have hroom' : s.workIndex + call.chunkSize ≤ maxIndex WorkerThreadCount call n := hroom
  rw [hmeasure, hnewMeasure] at hsum
  omega

/-- A step of a worker. -/
theorem stepWorker (h : Inv call n s) {t : Fin WorkerThreadCount} (hbase : 1 ≤ baseSize)
    (hchunk : 1 ≤ call.chunkSize) (hsize : maxIndex WorkerThreadCount call n < 2 ^ 32)
    (haxis : ∀ i < 2 ^ 32, (call.getAxis i).isSome = true ↔ i < n)
    (hstep : stepWorker baseSize call s t = some s') :
    Advances call n s s' := by
  have hindex : s.workIndex < 2 ^ 32 := Nat.lt_of_le_of_lt h.shares.workIndex_le hsize
  rcases stepWorker_cases hstep with ⟨hpc, hflag, rfl⟩ | ⟨hpc, hs'⟩ |
    ⟨workEnd, i, w', hpc, hlt, hwork, rfl⟩ | ⟨workEnd, i, hpc, hle, rfl⟩ | ⟨hpc, rfl⟩
  · have hpos : 0 < (s.worker t).measure := by simp [Worker.measure, hpc, hflag]
    exact h.moves ((h.working hpos).1.wake hpc hflag)
  · exact h.fetch hchunk hsize hpc hs'
  · have hpos : 0 < (s.worker t).measure := by simp [Worker.measure, hpc]
    exact h.moves ((h.working hpos).1.work hbase hindex haxis hpc hlt hwork)
  · have hpos : 0 < (s.worker t).measure := by simp [Worker.measure, hpc]
    exact h.moves ((h.working hpos).1.nextChunk hchunk hpc hle)
  · have hpos : 0 < (s.worker t).measure := by simp [Worker.measure, hpc]
    exact h.moves ((h.working hpos).1.finish hpc)

/-- A change at a worker that has not been woken up, which owns nothing. -/
theorem shares_fresh (h : Inv call n s) {t : Fin WorkerThreadCount}
    (ht : s.main.started WorkerThreadCount ≤ t.val) (main : MainPc) (hpc : w'.pc = .waiting)
    (hgiven : w'.given = []) (hfinished : w'.finished = false) :
    Shares call n { s with main := main, worker := Function.update s.worker t w' } := by
  have hfresh := (h.worker t).2 ht
  refine h.shares.update main (fun j hj => ?_) (fun j _ hj => absurd hj (hfresh.not_owns j)) ?_
  · rw [owns_iff (by simp [hpc]), hgiven] at hj
    cases hj
  · simp only [Worker.last, hpc, hfresh.pc_eq, hfinished, hfresh.unfinished]

/-- The calling thread sets the count of a worker to 0. -/
theorem reset (h : Inv call n s) {i : Nat} (hpc : s.main = .reset i) (hi : i < WorkerThreadCount)
    (hw' : w' = { s.worker ⟨i, hi⟩ with
      result := { (s.worker ⟨i, hi⟩).result with elementCount := 0 } }) :
    Advances call n s
      { s with main := .notify i, worker := Function.update s.worker ⟨i, hi⟩ w' } := by
  have hworker := h.worker
  rw [hpc] at hworker
  have hfresh := (hworker ⟨i, hi⟩).2 (Nat.le_refl i)
  have hfresh' : w'.Fresh := by
    subst hw'
    exact ⟨hfresh.pc_eq, hfresh.flag_eq, hfresh.given_eq, hfresh.unfinished⟩
  refine ⟨⟨⟨hi, ?_⟩, ?_, ?_⟩, ?_⟩
  · show (Function.update s.worker ⟨i, hi⟩ w' ⟨i, hi⟩).result.elementCount = 0
    rw [Function.update_self, hw']
  · refine h.shares_fresh ?_ _ hfresh'.pc_eq hfresh'.given_eq hfresh'.unfinished
    rw [hpc]
    exact Nat.le_refl i
  · exact forall_update (A := fun t => WorkerOk call n s.workIndex i t) (fun t _ => hworker t)
      ⟨fun hlt => absurd hlt (Nat.lt_irrefl i), fun _ => hfresh'⟩
  · have hsum := s.measure_update (maxIndex WorkerThreadCount call n) (.notify i) s.workIndex ⟨i, hi⟩ w'
    rw [hfresh.measure_eq_zero, hfresh'.measure_eq_zero, hpc] at hsum
    simp only [MainPc.measure] at hsum
    omega

/-- The calling thread wakes a worker up. -/
theorem notify (h : Inv call n s) {i : Nat} (hpc : s.main = .notify i) (hi : i < WorkerThreadCount)
    (hw' : w' = { s.worker ⟨i, hi⟩ with workingFlag := true }) :
    Advances call n s
      { s with main := .reset (i + 1), worker := Function.update s.worker ⟨i, hi⟩ w' } := by
  have hmain := h.main
  have hworker := h.worker
  rw [MainInv, hpc] at hmain
  rw [hpc] at hworker
  obtain ⟨_, hzero⟩ := hmain
  have hfresh := (hworker ⟨i, hi⟩).2 (Nat.le_refl i)
  have hpc' : w'.pc = .waiting := by rw [hw', hfresh.pc_eq]
  have hgiven : w'.given = [] := by rw [hw', hfresh.given_eq]
  have hfinished : w'.finished = false := by rw [hw', hfresh.unfinished]
  have hflag : w'.workingFlag = true := by rw [hw']
  have hcount : w'.result.elementCount = 0 := by rw [hw', hzero]
  have hwoken : WorkerInv call n s.workIndex w' := by
    refine ⟨?_, ?_, fun j hj => ?_, ?_, ?_⟩
    · rw [Worker.At, hpc']
      exact Or.inl ⟨hflag, hfinished⟩
    · rw [hgiven]
      exact List.Pairwise.nil
    · rw [hgiven] at hj
      cases hj
    · rw [WorkerThreadResult.Fits, hcount]
      exact Nat.zero_le _
    · rw [hgiven, WorkerThreadResult.values, hcount]
      rfl
  refine ⟨⟨trivial, ?_, ?_⟩, ?_⟩
  · refine h.shares_fresh ?_ _ hpc' hgiven hfinished
    rw [hpc]
    exact Nat.le_refl i
  · refine forall_update (A := fun t => WorkerOk call n s.workIndex (i + 1) t)
      (fun t hne => ⟨fun hlt => (hworker t).1 ?_, fun hge => (hworker t).2 (Nat.le_of_succ_le hge)⟩)
      ⟨fun _ => hwoken, fun hge => absurd hge (Nat.not_succ_le_self i)⟩
    have hval : t.val ≠ i := fun heq => hne (Fin.ext heq)
    show t.val < i
    omega
  · have hsum := s.measure_update (maxIndex WorkerThreadCount call n) (.reset (i + 1)) s.workIndex
      ⟨i, hi⟩ w'
    have hnew : w'.measure = 3 := by simp [Worker.measure, hpc', hflag]
    rw [hfresh.measure_eq_zero, hnew, hpc] at hsum
    simp only [MainPc.measure] at hsum
    omega

/-- A step that changes nothing but where the calling thread is. -/
theorem setMain (h : Inv call n s) {main : MainPc} (hmain : MainInv { s with main := main })
    (hstarted : ∀ t : Fin WorkerThreadCount, t.val < main.started WorkerThreadCount ↔
      t.val < s.main.started WorkerThreadCount)
    (hlt : main.measure WorkerThreadCount (maxIndex WorkerThreadCount call n) <
      s.main.measure WorkerThreadCount (maxIndex WorkerThreadCount call n)) :
    Advances call n s { s with main := main } := by
  refine ⟨⟨hmain, ⟨h.shares.start, h.shares.bound, h.shares.cover, h.shares.disjoint⟩,
    fun t => ⟨fun ht => (h.worker t).1 ((hstarted t).mp ht), fun ht => (h.worker t).2 ?_⟩⟩, ?_⟩
  · exact Nat.le_of_not_lt fun hlt => absurd ((hstarted t).mpr hlt) (Nat.not_lt.mpr ht)
  · simp only [State.measure]
    omega

/-- A step of the calling thread. -/
theorem stepMain (h : Inv call n s) (hcount : WorkerThreadCount < 2 ^ 31)
    (hstep : stepMain s = some s') :
    Advances call n s s' := by
  have hmain := h.main
  unfold MainInv at hmain
  unfold ParallelExecutor.stepMain at hstep
  cases hpc : s.main with
  | storeIndex =>
    rw [hpc] at hmain
    cases hmain
  | overflow =>
    rw [hpc] at hmain
    cases hmain
  | returned =>
    rw [hpc] at hstep
    cases hstep
  | reset i =>
    simp only [hpc] at hstep
    split_ifs at hstep with hi
    · obtain rfl := Option.some.inj hstep
      exact h.reset hpc hi rfl
    · obtain rfl := Option.some.inj hstep
      refine h.setMain (fun t ht => absurd ht (Nat.not_lt_zero _)) (fun t => ?_) ?_
      · have ht := t.isLt
        rw [hpc]
        simp only [MainPc.started]
        omega
      · rw [hpc]
        simp only [MainPc.measure]
        omega
  | notify i =>
    rw [hpc] at hmain
    obtain ⟨hi, -⟩ := hmain
    simp only [hpc, hi, dite_true] at hstep
    have hnext : MainPc.increment .reset i = .reset (i + 1) := if_pos (by omega)
    rw [hnext] at hstep
    obtain rfl := Option.some.inj hstep
    exact h.notify hpc hi rfl
  | wait i =>
    rw [hpc] at hmain
    simp only [hpc] at hstep
    split_ifs at hstep with hi hflag
    · have hnext : MainPc.increment .wait i = .wait (i + 1) := if_pos (by omega)
      rw [hnext] at hstep
      obtain rfl := Option.some.inj hstep
      refine h.setMain (fun t ht => ?_) (fun t => by rw [hpc]; rfl) ?_
      · rcases Nat.lt_succ_iff_lt_or_eq.mp ht with hlt | heq
        · exact hmain t hlt
        · rw [show t = ⟨i, hi⟩ from Fin.ext heq]
          exact hflag
      · rw [hpc]
        simp only [MainPc.measure]
        omega
    · obtain rfl := Option.some.inj hstep
      refine h.setMain (fun t => hmain t (by omega)) (fun t => by rw [hpc]; rfl) ?_
      rw [hpc]
      exact Nat.succ_pos _

/-- Until `ParallelFor` returns, some thread can make a step. -/
theorem exists_step (h : Inv call n s) (hbase : 1 ≤ baseSize) (hreturned : s.main ≠ .returned) :
    ∃ a s', step baseSize call s a = some s' := by
  have hmain := h.main
  unfold MainInv at hmain
  cases hpc : s.main with
  | storeIndex =>
    rw [hpc] at hmain
    cases hmain
  | overflow =>
    rw [hpc] at hmain
    cases hmain
  | returned => exact absurd hpc hreturned
  | reset i =>
    refine ⟨.main, ?_⟩
    simp only [step, ParallelExecutor.stepMain, hpc]
    split_ifs
    · exact ⟨_, rfl⟩
    · exact ⟨_, rfl⟩
  | notify i =>
    rw [hpc] at hmain
    obtain ⟨hi, -⟩ := hmain
    refine ⟨.main, ?_⟩
    simp only [step, ParallelExecutor.stepMain, hpc, hi, dite_true]
    exact ⟨_, rfl⟩
  | wait i =>
    by_cases hi : i < WorkerThreadCount
    · cases hflag : (s.worker ⟨i, hi⟩).workingFlag with
      | false =>
        refine ⟨.main, ?_⟩
        simp only [step, ParallelExecutor.stepMain, hpc, hi, hflag, dite_true, if_true]
        exact ⟨_, rfl⟩
      | true =>
        -- the worker that the calling thread waits for can go on
        have hinv := (h.worker ⟨i, hi⟩).1 (by rw [hpc]; exact hi)
        refine ⟨.worker ⟨i, hi⟩, ?_⟩
        simp only [step, ParallelExecutor.stepWorker]
        cases hw : (s.worker ⟨i, hi⟩).pc with
        | waiting =>
          simp only [hflag, if_true]
          exact ⟨_, rfl⟩
        | fetching => exact ⟨_, rfl⟩
        | looping workEnd k =>
          dsimp only
          split_ifs
          · obtain ⟨w', hwork, -⟩ := work_spec hbase hinv.fits workEnd k
            rw [hwork]
            exact ⟨_, rfl⟩
          · exact ⟨_, rfl⟩
        | finishing => exact ⟨_, rfl⟩
    · refine ⟨.main, ?_⟩
      simp only [step, ParallelExecutor.stepMain, hpc, hi, dite_false]
      exact ⟨_, rfl⟩

/-- When `ParallelFor` returns, each worker waits again. -/
theorem returned (h : Inv call n s) (hmain : s.main = .returned) (t : Fin WorkerThreadCount) :
    WorkerInv call n s.workIndex (s.worker t) ∧ (s.worker t).pc = .waiting ∧
      (s.worker t).workingFlag = false ∧ n + call.chunkSize < s.workIndex := by
  have hflags := h.main
  rw [MainInv, hmain] at hflags
  have hflag := hflags t
  have hinv := (h.worker t).1 (by rw [hmain]; exact t.isLt)
  obtain ⟨hpc, hlt⟩ := hinv.of_flag hflag
  exact ⟨hinv, hpc, hflag, hlt⟩

/-- When `ParallelFor` returns, the indices given to the task are those below `n`. -/
theorem given_perm (h : Inv call n s) (hpos : 1 ≤ WorkerThreadCount) (hmain : s.main = .returned) :
    s.given.Perm (List.range n) := by
  have howns (t : Fin WorkerThreadCount) (j : Nat) :
      (s.worker t).Owns j ↔ j ∈ (s.worker t).given :=
    owns_iff (by simp [(h.returned hmain t).2.1])
  have hnodup : s.given.Nodup := by
    refine List.nodup_flatMap.mpr ⟨fun t _ => (h.returned hmain t).1.increasing.imp Nat.ne_of_lt, ?_⟩
    refine (List.nodup_finRange _).imp fun {t t'} hne j hj hj' => hne ?_
    exact h.shares.disjoint t t' j ((howns t j).mpr hj) ((howns t' j).mpr hj')
  refine (List.perm_ext_iff_of_nodup hnodup List.nodup_range).mpr fun j => ?_
  rw [State.given, List.mem_flatMap, List.mem_range]
  constructor
  · rintro ⟨t, -, hj⟩
    exact ((h.returned hmain t).1.below j hj).1
  · intro hj
    have hlt := (h.returned hmain ⟨0, hpos⟩).2.2.2
    obtain ⟨t, ht⟩ := h.shares.cover j hj (by omega)
    exact ⟨t, List.mem_finRange t, (howns t j).mp ht⟩

/-- What `ParallelFor` leaves behind when it returns is correct. -/
theorem correct (h : Inv call n s) (hpos : 1 ≤ WorkerThreadCount) (hchunk : 1 ≤ call.chunkSize)
    (hsize : maxIndex WorkerThreadCount call n < 2 ^ 32) (hmain : s.main = .returned) :
    Correct call n s := by
  have hperm := h.given_perm hpos hmain
  have hworker (t : Fin WorkerThreadCount) := (h.returned hmain t).1
  refine ⟨hperm, fun t => (hworker t).increasing, ?_, ?_,
    fun t => ⟨(h.returned hmain t).2.1, (h.returned hmain t).2.2.1⟩⟩
  · have hmul := Nat.le_mul_of_pos_right (WorkerThreadCount + 1) hchunk
    have hlength : s.threadResults.length < 2 ^ 32 := by
      rw [State.threadResults, List.length_map, List.length_finRange]
      unfold maxIndex at hsize
      omega
    have hrs : ∀ r ∈ s.threadResults, r.Fits call.copyable ∧ r.elementCount < 2 ^ 32 := by
      intro r hr
      obtain ⟨t, -, rfl⟩ := List.mem_map.mp hr
      refine ⟨(hworker t).fits, ?_⟩
      have hlen := congrArg List.length (hworker t).values_eq
      rw [WorkerThreadResult.length_values] at hlen
      have hfilter := List.length_filterMap_le call.resultOf (s.worker t).given
      have hgiven : (s.worker t).given.length ≤ n := by
        have hsub : (s.worker t).given.Subperm (List.range n) :=
          List.subperm_of_subset ((hworker t).increasing.imp Nat.ne_of_lt)
            fun j hj => List.mem_range.mpr ((hworker t).below j hj).1
        simpa using hsub.length_le
      unfold maxIndex at hsize
      omega
    obtain ⟨fuel, hiterate⟩ := iterate_begin hlength hrs
    refine ⟨fuel, hiterate.trans (congrArg some ?_)⟩
    rw [State.threadResults, List.flatMap_map]
    exact List.flatMap_congr fun t _ => (hworker t).values_eq
  · have hfilter := hperm.filterMap call.resultOf
    rwa [State.given, List.filterMap_flatMap] at hfilter

end Inv

/-! ## Calls -/

/-- The first step of a call: no worker has been woken up yet. -/
theorem Called.firstStep (h : Called s) {a : Action WorkerThreadCount}
    (hstep : step baseSize call s a = some s') :
    Advances call n s s' := by
  have hfresh (t : Fin WorkerThreadCount) : (s.worker t).Fresh :=
    ⟨h.waiting t, h.flag t, h.given t, h.unfinished t⟩
  cases a with
  | main =>
    simp only [step, stepMain, h.main_eq] at hstep
    obtain rfl := Option.some.inj hstep
    refine ⟨⟨trivial, ⟨Or.inl rfl, Nat.zero_le _, fun j _ hlt => absurd hlt (Nat.not_lt_zero _),
      fun t t' j hj _ => absurd hj ((hfresh t).not_owns j)⟩,
      fun t => ⟨fun hlt => absurd hlt (Nat.not_lt_zero _), fun _ => hfresh t⟩⟩, ?_⟩
    simp only [State.measure, MainPc.measure, h.main_eq]
    omega
  | worker t =>
    simp only [step, stepWorker, h.waiting t, h.flag t, Bool.false_eq_true, if_false] at hstep
    cases hstep

/-- Every step of a call keeps the invariant and makes the measure smaller. -/
theorem step_inv (hbase : 1 ≤ baseSize) (hchunk : 1 ≤ call.chunkSize)
    (hsize : maxIndex WorkerThreadCount call n < 2 ^ 32)
    (haxis : ∀ i < 2 ^ 32, (call.getAxis i).isSome = true ↔ i < n)
    (hcount : WorkerThreadCount < 2 ^ 31) {a : Action WorkerThreadCount}
    (h : Called s ∨ Inv call n s) (hstep : step baseSize call s a = some s') :
    (Called s' ∨ Inv call n s') ∧ s'.measure (maxIndex WorkerThreadCount call n) <
      s.measure (maxIndex WorkerThreadCount call n) := by
  have hadvances : Advances call n s s' := by
    rcases h with hcalled | hinv
    · exact hcalled.firstStep hstep
    · cases a with
      | main => exact hinv.stepMain hcount hstep
      | worker t => exact hinv.stepWorker hbase hchunk hsize haxis hstep
  exact ⟨Or.inr hadvances.inv, hadvances.measure_lt⟩

/-- Up to `2 ^ 31` worker threads, `ParallelFor` is the filter-map. -/
theorem equalsFilterMap_of_lt (hpos : 1 ≤ WorkerThreadCount) (hbase : 1 ≤ baseSize)
    (hchunk : 1 ≤ call.chunkSize) (hsize : maxIndex WorkerThreadCount call n < 2 ^ 32)
    (haxis : ∀ i < 2 ^ 32, (call.getAxis i).isSome = true ↔ i < n)
    (hcount : WorkerThreadCount < 2 ^ 31) : EqualsFilterMap WorkerThreadCount baseSize call n := by
  intro s₀ hcalled
  have hstep (s : State WorkerThreadCount) (a : Action WorkerThreadCount)
      (s' : State WorkerThreadCount) (h : Called s ∨ Inv call n s)
      (hs : step baseSize call s a = some s') := step_inv hbase hchunk hsize haxis hcount h hs
  refine ⟨fun as s hrun => ?_, _, fun as s hrun => length_le_of_decreasing hstep (Or.inl hcalled) hrun⟩
  have hreached := run_invariant' (fun s a s' h hs => (hstep s a s' h hs).1) (Or.inl hcalled) hrun
  rcases hreached with hs | hinv
  · have hfirst : step baseSize call s .main = some { s with main := .reset 0, workIndex := 0 } := by
      simp only [step, stepMain, hs.main_eq]
    exact ⟨by simp [hs.main_eq], fun _ => ⟨.main, _, hfirst⟩, by simp [hs.main_eq]⟩
  · refine ⟨fun hoverflow => ?_, hinv.exists_step hbase, hinv.correct hpos hchunk hsize⟩
    have hmain := hinv.main
    rw [MainInv, hoverflow] at hmain
    exact hmain

/-! ## The loops over the worker threads -/

/-- An iteration of the first loop. -/
theorem exists_run_iteration (baseSize : Nat) (call : Call A R) {i : Nat} (hmain : s.main = .reset i)
    (hi : i < WorkerThreadCount) : ∃ s', run (step baseSize call) s [.main, .main] = some s' ∧
      s'.main = .increment .reset i := by
  obtain ⟨s₁, hs₁, hmain₁⟩ : ∃ s₁, stepMain s = some s₁ ∧ s₁.main = .notify i := by
    simp only [stepMain, hmain, hi, dite_true]
    exact ⟨_, rfl, rfl⟩
  obtain ⟨s₂, hs₂, hmain₂⟩ : ∃ s₂, stepMain s₁ = some s₂ ∧ s₂.main = .increment .reset i := by
    simp only [stepMain, hmain₁, hi, dite_true]
    exact ⟨_, rfl, rfl⟩
  exact ⟨s₂, run_cons_eq_some.mpr ⟨s₁, hs₁, run_cons_eq_some.mpr ⟨s₂, hs₂, rfl⟩⟩, hmain₂⟩

/-- The calling thread gets to each iteration of its first loop. -/
theorem exists_run_reset (baseSize : Nat) (call : Call A R) (h : Called s)
    (hcount : 2 ^ 31 ≤ WorkerThreadCount) {i : Nat} (hi : i < 2 ^ 31) :
    ∃ as s', run (step baseSize call) s as = some s' ∧ s'.main = .reset i := by
  induction i with
  | zero =>
    have hstep : step baseSize call s .main = some { s with main := .reset 0, workIndex := 0 } := by
      simp only [step, stepMain, h.main_eq]
    exact ⟨[.main], _, run_cons_eq_some.mpr ⟨_, hstep, rfl⟩, rfl⟩
  | succ i ih =>
    obtain ⟨as, s₁, hrun, hmain⟩ := ih (Nat.lt_of_succ_lt hi)
    obtain ⟨s₂, hrun', hmain'⟩ := exists_run_iteration baseSize call hmain (by omega)
    exact ⟨as ++ [.main, .main], s₂, run_append hrun hrun', hmain'.trans (if_pos hi)⟩

/-- With more worker threads, the first loop overflows its `int`. -/
theorem exists_run_overflow (baseSize : Nat) (call : Call A R) (h : Called s)
    (hcount : 2 ^ 31 ≤ WorkerThreadCount) :
    ∃ as s', run (step baseSize call) s as = some s' ∧ s'.main = .overflow := by
  have hlast : 2 ^ 31 - 1 < 2 ^ 31 := by omega
  obtain ⟨as, s₁, hrun, hmain⟩ := exists_run_reset baseSize call h hcount hlast
  obtain ⟨s₂, hrun', hmain'⟩ := exists_run_iteration baseSize call hmain (by omega)
  exact ⟨as ++ [.main, .main], s₂, run_append hrun hrun', hmain'.trans (if_neg (by omega))⟩

/-- `ParallelFor` has just been called on a new executor. -/
def newCall (WorkerThreadCount : Nat) : State WorkerThreadCount :=
  ⟨.storeIndex, 0, fun _ => ⟨.waiting, false, ⟨0, 0, fun _ => 0⟩, [], false⟩⟩

theorem called_newCall : Called (newCall WorkerThreadCount) :=
  ⟨rfl, fun _ => rfl, fun _ => rfl, fun _ => rfl, fun _ => rfl⟩

theorem not_equalsFilterMap_of_le (hcount : 2 ^ 31 ≤ WorkerThreadCount) :
    ¬ EqualsFilterMap WorkerThreadCount baseSize call n := by
  intro h
  obtain ⟨as, s, hrun, hmain⟩ :=
    exists_run_overflow baseSize call called_newCall hcount
  exact ((h _ called_newCall).1 as s hrun).1 hmain

/-! ## The theorem -/

/-- **`ParallelFor`.** Where `workIndex_` does not overflow, `ParallelFor` gives every index to the task
exactly once and returns the results of the sequential filter-map, exactly if the worker threads can be
counted in an `int`. -/
theorem equalsFilterMap_iff (WorkerThreadCount baseSize n : Nat) (call : Call A R)
    (hpos : 1 ≤ WorkerThreadCount) (hbase : 1 ≤ baseSize) (hchunk : 1 ≤ call.chunkSize)
    (hsize : n + (WorkerThreadCount + 1) * call.chunkSize < 2 ^ 32)
    (haxis : ∀ i < 2 ^ 32, (call.getAxis i).isSome = true ↔ i < n) :
    EqualsFilterMap WorkerThreadCount baseSize call n ↔ WorkerThreadCount < 2 ^ 31 := by
  constructor
  · intro h
    by_contra hge
    exact not_equalsFilterMap_of_le (Nat.le_of_not_lt hge) h
  · exact equalsFilterMap_of_lt hpos hbase hchunk hsize haxis

/-- Even indices below `n` have a result, in chunks of `chunkSize`. -/
def evenCall (n chunkSize : Nat) : Call Nat UInt8 where
  copyable := copyableByte
  getAxis i := if i < n then some i else none
  task axis := if axis % 2 = 0 then some (UInt8.ofNat axis) else none
  chunkSize := chunkSize

theorem isSome_getAxis_evenCall (n chunkSize i : Nat) :
    ((evenCall n chunkSize).getAxis i).isSome = true ↔ i < n := by
  simp [evenCall]

theorem equalsFilterMap_iff_twoWorkers : EqualsFilterMap 2 3 (evenCall 5 2) 5 ↔ 2 < 2 ^ 31 :=
  equalsFilterMap_iff 2 3 5 (evenCall 5 2) (by decide) (by decide) (by decide) (by decide)
    fun i _ => isSome_getAxis_evenCall 5 2 i

/-- `2 ^ 31` worker threads are too many, even without an index. -/
theorem not_equalsFilterMap_manyWorkers : ¬ EqualsFilterMap (2 ^ 31) 1 (evenCall 0 1) 0 :=
  not_equalsFilterMap_of_le (Nat.le_refl _)

end RatkiniaServer.Floweryclover.ParallelExecutor
