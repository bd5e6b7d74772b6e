import RatkiniaServer.Floweryclover.Proofs.ExecutionResults
import RatkiniaServer.Floweryclover.WorkerThreads

/-!
# The results of `ParallelForWorkerThreads`

`work_` makes room for one value but writes it where a second one would be, and the iterator reads the
first. So a value arrives only if its page has room for two and the first one, from an earlier call or
the zeroes of a new page, is that value already.
-/

namespace RatkiniaServer.Floweryclover.ParallelExecutor

open Ring Threads Transition

namespace WorkerThreads

variable {R : Type} {copyable : TriviallyCopyable R} {baseSize : Nat} {r r' : WorkerThreadResult}

/-! ## What is claimed -/

/-- From a state that earlier calls have left, whatever the order of the steps: no undefined behaviour
comes up, there is a next step until `ParallelForWorkerThreads` returns, which it does after a bounded
number of steps, and iterating over what it returns yields the values of the tasks in the order of the
worker threads. -/
def ReturnsResults {WorkerThreadCount : Nat} (copyable : TriviallyCopyable R) (baseSize : Nat)
    (task : Fin WorkerThreadCount → Option R)
    (results : Fin WorkerThreadCount → WorkerThreadResult) : Prop :=
  (∀ as s, run (step copyable baseSize task) (called results) as = some s →
    s.main ≠ .overflow ∧ (∀ t, (s.worker t).pc ≠ .overrun) ∧
      (s.main ≠ .returned → ∃ a s', step copyable baseSize task s a = some s') ∧
      (s.main = .returned → ∃ fuel,
        iterate copyable s.threadResults fuel (Iterator.begin s.threadResults) =
          some ((List.finRange WorkerThreadCount).filterMap task))) ∧
  ∃ bound, ∀ as s, run (step copyable baseSize task) (called results) as = some s → as.length ≤ bound

/-- The size of the page, or of a first page where there is none. -/
def firstSize (baseSize : Nat) (r : WorkerThreadResult) : Nat :=
  if r.pageSize = 0 then baseSize else r.pageSize

/-- The bytes of the page, or the zeroes of a first page. -/
def firstBytes (r : WorkerThreadResult) : Nat → UInt8 := if r.pageSize = 0 then fun _ => 0 else r.page

/-- The page has room for two values, and the first of them is `result`. -/
def AlreadyThere (copyable : TriviallyCopyable R) (baseSize : Nat) (r : WorkerThreadResult)
    (result : R) : Prop :=
  2 * copyable.size ≤ firstSize baseSize r ∧
    copyable.ofBytes (slice (firstBytes r) 0 copyable.size) = result

/-! ## Storing a value -/

/-- A page that is extended to hold a value does not get room for two. -/
theorem pageSize_lt_of_extended {atLeast fuel : Nat} (hpos : 0 < r.pageSize)
    (hlt : r.pageSize < atLeast)
    (heq : WorkerThreadResult.extendPageAtLeast baseSize atLeast fuel r = some r') :
    r'.pageSize < 2 * atLeast := by
  induction fuel generalizing r with
  | zero =>
    rw [WorkerThreadResult.extendPageAtLeast, if_pos hlt] at heq
    cases heq
  | succ fuel ih =>
    rw [WorkerThreadResult.extendPageAtLeast, if_pos hlt] at heq
    have hsize : (r.extendPage baseSize).pageSize = r.pageSize * 2 := if_neg (Nat.ne_of_gt hpos)
    by_cases hmore : (r.extendPage baseSize).pageSize < atLeast
    · exact ih (by omega) hmore heq
    · have hsame : r.extendPage baseSize = r' := by
        cases fuel <;> rw [WorkerThreadResult.extendPageAtLeast, if_neg hmore] at heq <;>
          exact Option.some.inj heq
      rw [← hsame]
      omega

theorem extendPageAtLeast_of_le {atLeast : Nat} (hle : atLeast ≤ r.pageSize) (fuel : Nat) :
    WorkerThreadResult.extendPageAtLeast baseSize atLeast fuel r = some r := by
  cases fuel <;> exact if_neg (Nat.not_lt.mpr hle)

/-- The page that a value is written to, if there is room behind a first value. -/
theorem exists_extended_iff (hbase : 1 ≤ baseSize) (copyable : TriviallyCopyable R)
    (r : WorkerThreadResult) :
    ∃ r', WorkerThreadResult.extendPageAtLeast baseSize copyable.size copyable.size r = some r' ∧
      copyable.size ≤ r'.pageSize ∧
      (2 * copyable.size ≤ r'.pageSize ↔ 2 * copyable.size ≤ firstSize baseSize r) ∧
      (2 * copyable.size ≤ r'.pageSize → r'.page = firstBytes r) := by
  have hpos := copyable.size_pos
  obtain ⟨r', heq, hle, -⟩ :=
    WorkerThreadResult.extendPageAtLeast_spec hbase r copyable.size (Nat.le_add_left _ _)
  refine ⟨r', heq, hle, ?_⟩
  rcases Nat.eq_zero_or_pos r.pageSize with hzero | hsize
  · -- The first page.
    rw [firstSize, firstBytes, if_pos hzero, if_pos hzero]
    obtain ⟨k, hk⟩ : ∃ k, copyable.size = k + 1 := ⟨copyable.size - 1, by omega⟩
    have hfirst : WorkerThreadResult.extendPageAtLeast baseSize copyable.size k
        (r.extendPage baseSize) = some r' := by
      rw [← heq]
      nth_rewrite 3 [hk]
      exact (if_pos (by omega)).symm
    have hbaseSize : (r.extendPage baseSize).pageSize = baseSize := if_pos hzero
    by_cases hroom : copyable.size ≤ baseSize
    · rw [extendPageAtLeast_of_le (by rw [hbaseSize]; exact hroom)] at hfirst
      rw [← Option.some.inj hfirst, hbaseSize]
      refine ⟨Iff.rfl, fun _ => funext fun i => if_neg ?_⟩
      rw [hzero]
      exact Nat.not_lt_zero i
    · have hlt := pageSize_lt_of_extended (by omega) (by omega) hfirst
      exact ⟨⟨fun h => by omega, fun h => by omega⟩, fun h => absurd h (by omega)⟩
  · rw [firstSize, firstBytes, if_neg (Nat.ne_of_gt hsize), if_neg (Nat.ne_of_gt hsize)]
    by_cases hroom : copyable.size ≤ r.pageSize
    · rw [extendPageAtLeast_of_le hroom] at heq
      rw [← Option.some.inj heq]
      exact ⟨Iff.rfl, fun _ => rfl⟩
    · have hlt := pageSize_lt_of_extended hsize (Nat.not_le.mp hroom) heq
      exact ⟨⟨fun h => by omega, fun h => by omega⟩, fun h => absurd h (by omega)⟩

/-- The value that the iterator finds after `store`, if there was room to store one. -/
theorem store_some (copyable : TriviallyCopyable R) (hbase : 1 ≤ baseSize) (r : WorkerThreadResult) (result : R) :
    if 2 * copyable.size ≤ firstSize baseSize r then
      ∃ r', store copyable baseSize r (some result) = some r' ∧ r'.Fits copyable ∧
        r'.elementCount = 1 ∧
        r'.values copyable = [copyable.ofBytes (slice (firstBytes r) 0 copyable.size)]
    else store copyable baseSize r (some result) = none := by
  obtain ⟨e, heq, hle, hiff, hpage⟩ := exists_extended_iff hbase copyable r
  split_ifs with hroom
  · have hroom' := hiff.mpr hroom
    refine ⟨{ e with
      page := write e.page copyable.size (copyable.toBytes result)
      elementCount := 1 }, ?_, ?_, rfl, ?_⟩
    · rw [store, heq, Option.bind_some]
      exact if_pos (by omega)
    · simp only [WorkerThreadResult.Fits, Nat.mul_one]
      exact hle
    · simp only [WorkerThreadResult.values, List.range_one, List.map_singleton,
        WorkerThreadResult.element, Nat.zero_mul]
      rw [slice_write_of_le (by omega), hpage hroom']
  · rw [store, heq, Option.bind_some]
    exact if_neg (by omega)

/-! ## The stages of a worker thread -/

/-- What has happened to a worker thread: nothing, its `ElementCount` has been reset, it has been woken
up, it has run the task, it is done. -/
inductive Stage
  | fresh
  | reset
  | woken
  | worked
  | finished
  deriving DecidableEq

/-- It has been woken up. -/
def Stage.Started (stage : Stage) : Prop := stage ≠ .fresh ∧ stage ≠ .reset

section Machine

variable (copyable baseSize) in
/-- The worker thread at a stage, from the page that it has had and the value of its task. -/
def workerAt (r : WorkerThreadResult) (result : Option R) : Stage → TaskWorker
  | .fresh => ⟨.waiting, false, r⟩
  | .reset => ⟨.waiting, false, { r with elementCount := 0 }⟩
  | .woken => ⟨.waiting, true, { r with elementCount := 0 }⟩
  | .worked => TaskWorker.work copyable baseSize ⟨.waiting, true, { r with elementCount := 0 }⟩ result
  | .finished =>
    { TaskWorker.work copyable baseSize ⟨.waiting, true, { r with elementCount := 0 }⟩ result with
      pc := .waiting
      workingFlag := false }

/-- The stage of the worker thread `threadId`, counted from 1, fits to where the calling thread is. -/
def StageOk (threadId : Nat) (stage : Stage) : LoopPc → Prop
  | .reset id => (threadId < id → stage.Started) ∧ (id ≤ threadId → stage = .fresh)
  | .notify id => (threadId < id → stage.Started) ∧ (threadId = id → stage = .reset) ∧
      (id < threadId → stage = .fresh)
  | .wait id => stage.Started ∧ (threadId < id → stage = .finished)
  | .returned => stage = .finished
  | .overflow => True

/-- The loops stay in their bounds, and too many threads do not get past the first one. -/
def MainOk (WorkerThreadCount : Nat) : LoopPc → Prop
  | .reset id => 1 ≤ id ∧ id ≤ WorkerThreadCount + 1 ∧ id < 2 ^ 31
  | .notify id => 1 ≤ id ∧ id ≤ WorkerThreadCount
  | .wait id => 1 ≤ id ∧ id ≤ WorkerThreadCount + 1 ∧ WorkerThreadCount + 1 < 2 ^ 31
  | .returned => WorkerThreadCount + 1 < 2 ^ 31
  | .overflow => 2 ^ 31 ≤ WorkerThreadCount + 1

variable {WorkerThreadCount : Nat} {task : Fin WorkerThreadCount → Option R}
  {results : Fin WorkerThreadCount → WorkerThreadResult} {s s' : State WorkerThreadCount}
  {stage : Fin WorkerThreadCount → Stage} {t : Fin WorkerThreadCount}

/-- The invariant. -/
structure Inv (copyable : TriviallyCopyable R) (baseSize : Nat)
    (task : Fin WorkerThreadCount → Option R) (results : Fin WorkerThreadCount → WorkerThreadResult)
    (s : State WorkerThreadCount) (stage : Fin WorkerThreadCount → Stage) : Prop where
  worker : ∀ t, s.worker t = workerAt copyable baseSize (results t) (task t) (stage t)
  main : MainOk WorkerThreadCount s.main
  stageOk : ∀ t : Fin WorkerThreadCount, StageOk (t + 1) (stage t) s.main
  /-- Where the value has not been stored, the worker thread has not come back. -/
  stored : ∀ t : Fin WorkerThreadCount, stage t = .finished →
    (workerAt copyable baseSize (results t) (task t) .worked).pc = .finishing

theorem inv_called : Inv copyable baseSize task results (called results) fun _ => .fresh where
  worker _ := rfl
  main := ⟨le_rfl, Nat.le_add_left _ _, by decide⟩
  stageOk t := ⟨fun h => absurd h (by omega), fun _ => rfl⟩
  stored t h := by cases h

variable (copyable baseSize) in
theorem work_pc (w : TaskWorker) (result : Option R) :
    (w.work copyable baseSize result).workingFlag = w.workingFlag ∧
      ((w.work copyable baseSize result).pc = .finishing ∨
        (w.work copyable baseSize result).pc = .overrun) := by
  unfold TaskWorker.work
  split
  · exact ⟨rfl, Or.inl rfl⟩
  · exact ⟨rfl, Or.inr rfl⟩

/-- A worker thread that has been woken up and of which the flag is false is done. -/
theorem finished_of_flag {st : Stage} (hst : st.Started) {r : WorkerThreadResult} {result : Option R}
    (hflag : (workerAt copyable baseSize r result st).workingFlag = false) : st = .finished := by
  cases st with
  | fresh => exact absurd rfl hst.1
  | reset => exact absurd rfl hst.2
  | woken => cases hflag
  | worked =>
    rw [workerAt, (work_pc _ _ _ _).1] at hflag
    cases hflag
  | finished => rfl

/-! ## Steps -/

/-- How many steps a worker thread has before it. -/
def TaskWorker.measure (w : TaskWorker) : Nat :=
  match w.pc with
  | .waiting => if w.workingFlag then 2 else 0
  | .finishing => 1
  | .overrun => 0

/-- How far the calling thread is from its return. -/
def LoopPc.measure (WorkerThreadCount : Nat) : LoopPc → Nat
  | .reset id => 4 * (WorkerThreadCount + 1 - id) + WorkerThreadCount + 3
  | .notify id => 4 * (WorkerThreadCount + 1 - id) + WorkerThreadCount + 2
  | .wait id => WorkerThreadCount + 1 - id + 1
  | .returned | .overflow => 0

/-- A bound on the steps that are left. -/
def State.measure (s : State WorkerThreadCount) : Nat :=
  s.main.measure WorkerThreadCount + ∑ t, (s.worker t).measure

theorem State.measure_update (s : State WorkerThreadCount) (main : LoopPc)
    (t : Fin WorkerThreadCount) (w' : TaskWorker) :
    State.measure ⟨main, Function.update s.worker t w'⟩ + s.main.measure WorkerThreadCount +
        (s.worker t).measure = s.measure + main.measure WorkerThreadCount + w'.measure := by
  have hsum := sum_update TaskWorker.measure s.worker t w'
  simp only [State.measure]
  omega

/-- A step of one worker thread to its next stage. -/
theorem Inv.update (h : Inv copyable baseSize task results s stage) {main : LoopPc} {k : Stage}
    {w' : TaskWorker} (hw' : w' = workerAt copyable baseSize (results t) (task t) k)
    (hmain : MainOk WorkerThreadCount main)
    (hstage : ∀ t' : Fin WorkerThreadCount, t' ≠ t → StageOk (t' + 1) (stage t') main)
    (hk : StageOk (t + 1) k main)
    (hstored : k = .finished →
      (workerAt copyable baseSize (results t) (task t) .worked).pc = .finishing) :
    Inv copyable baseSize task results ⟨main, Function.update s.worker t w'⟩
      (Function.update stage t k) where
  worker := forall_update (A := fun t' w => w = workerAt copyable baseSize (results t') (task t')
      (Function.update stage t k t'))
    (fun t' hne => by rw [Function.update_of_ne hne]; exact h.worker t')
    (by rw [Function.update_self]; exact hw')
  main := hmain
  stageOk := forall_update (A := fun (t' : Fin WorkerThreadCount) k => StageOk (t' + 1) k main)
    hstage hk
  stored := forall_update (A := fun t' k => k = Stage.finished →
    (workerAt copyable baseSize (results t') (task t') .worked).pc = .finishing)
    (fun t' _ => h.stored t') hstored

theorem Inv.setMain (h : Inv copyable baseSize task results s stage) {main : LoopPc}
    (hmain : MainOk WorkerThreadCount main)
    (hstage : ∀ t : Fin WorkerThreadCount, StageOk (t + 1) (stage t) main) :
    Inv copyable baseSize task results { s with main := main } stage :=
  ⟨h.worker, hmain, hstage, h.stored⟩

/-- The invariant holds after the step, and less is left to do. -/
def Advances (copyable : TriviallyCopyable R) (baseSize : Nat)
    (task : Fin WorkerThreadCount → Option R) (results : Fin WorkerThreadCount → WorkerThreadResult)
    (s s' : State WorkerThreadCount) : Prop :=
  (∃ stage', Inv copyable baseSize task results s' stage') ∧ s'.measure < s.measure

theorem Inv.advances_reset (h : Inv copyable baseSize task results s stage) {id : Nat}
    (hpc : s.main = .reset id) (hs : stepMain s = some s') :
    Advances copyable baseSize task results s s' := by
  obtain ⟨hpos, hle, hint⟩ : MainOk WorkerThreadCount (.reset id) := hpc ▸ h.main
  have hstage : ∀ t : Fin WorkerThreadCount, StageOk (t + 1) (stage t) (.reset id) := hpc ▸ h.stageOk
  simp only [WorkerThreads.stepMain, hpc] at hs
  split_ifs at hs with hlt
  · obtain rfl := Option.some.inj hs
    have hfresh : stage ⟨id - 1, hlt⟩ = .fresh := (hstage ⟨id - 1, hlt⟩).2 (by simp; omega)
    have hw := h.worker ⟨id - 1, hlt⟩
    rw [hfresh] at hw
    refine ⟨⟨_, h.update (k := .reset) (by rw [hw]; rfl) ⟨hpos, by omega⟩ (fun t' hne => ?_) ?_
      (fun hk => by cases hk)⟩, ?_⟩
    · have hne' : t'.val ≠ id - 1 := fun heq => hne (Fin.ext heq)
      obtain ⟨h1, h2⟩ := hstage t'
      exact ⟨h1, fun heq => absurd heq (by omega), fun hlt' => h2 (by omega)⟩
    · refine ⟨fun hlt' => absurd hlt' ?_, fun _ => rfl, fun hlt' => absurd hlt' ?_⟩ <;>
        simp <;> omega
    · have hmeasure := s.measure_update (.notify id) ⟨id - 1, hlt⟩
        { s.worker ⟨id - 1, hlt⟩ with
          result := { (s.worker ⟨id - 1, hlt⟩).result with elementCount := 0 } }
      rw [hpc] at hmeasure
      simp only [LoopPc.measure, TaskWorker.measure, hw, workerAt, Bool.false_eq_true,
        if_false] at hmeasure ⊢
      omega
  · obtain rfl := Option.some.inj hs
    have hid : id = WorkerThreadCount + 1 := by omega
    refine ⟨⟨stage, h.setMain ⟨le_rfl, by omega, by omega⟩ fun t => ⟨(hstage t).1 (by omega),
      fun hlt' => absurd hlt' (by omega)⟩⟩, ?_⟩
    simp only [State.measure, LoopPc.measure, hpc]
    omega

theorem Inv.advances_notify (h : Inv copyable baseSize task results s stage) {id : Nat}
    (hpc : s.main = .notify id) (hs : stepMain s = some s') :
    Advances copyable baseSize task results s s' := by
  obtain ⟨hpos, hle⟩ : MainOk WorkerThreadCount (.notify id) := hpc ▸ h.main
  have hstage : ∀ t : Fin WorkerThreadCount, StageOk (t + 1) (stage t) (.notify id) := hpc ▸ h.stageOk
  have hlt : id - 1 < WorkerThreadCount := by omega
  simp only [WorkerThreads.stepMain, hpc] at hs
  rw [dif_pos hlt] at hs
  obtain rfl := Option.some.inj hs
  have hreset : stage ⟨id - 1, hlt⟩ = .reset := (hstage ⟨id - 1, hlt⟩).2.1 (by simp; omega)
  have hw := h.worker ⟨id - 1, hlt⟩
  rw [hreset] at hw
  have hmeasure := s.measure_update (LoopPc.increment .reset id) ⟨id - 1, hlt⟩
    { s.worker ⟨id - 1, hlt⟩ with workingFlag := true }
  rw [hpc] at hmeasure
  by_cases hmax : id + 1 < 2 ^ 31
  · have hinc : LoopPc.increment .reset id = .reset (id + 1) := if_pos hmax
    rw [hinc] at hmeasure ⊢
    refine ⟨⟨_, h.update (k := .woken) (by rw [hw]; rfl) ⟨by omega, by omega, hmax⟩
      (fun t' hne => ?_) ?_ (fun hk => by cases hk)⟩, ?_⟩
    · have hne' : t'.val ≠ id - 1 := fun heq => hne (Fin.ext heq)
      obtain ⟨h1, -, h2⟩ := hstage t'
      exact ⟨fun hlt' => h1 (by omega), fun hle' => h2 (by omega)⟩
    · refine ⟨fun _ => ⟨by simp, by simp⟩, fun hle' => absurd hle' ?_⟩
      simp
      omega
    · simp only [LoopPc.measure, TaskWorker.measure, hw, workerAt, Bool.false_eq_true,
        if_false, if_true] at hmeasure ⊢
      omega
  · have hinc : LoopPc.increment .reset id = .overflow := if_neg hmax
    rw [hinc] at hmeasure ⊢
    refine ⟨⟨_, h.update (k := .woken) (by rw [hw]; rfl) ?_ (fun t' hne => trivial) trivial
      (fun hk => by cases hk)⟩, ?_⟩
    · change 2 ^ 31 ≤ WorkerThreadCount + 1
      omega
    · simp only [LoopPc.measure, TaskWorker.measure, hw, workerAt, Bool.false_eq_true,
        if_false, if_true] at hmeasure ⊢
      omega

theorem Inv.advances_wait (h : Inv copyable baseSize task results s stage) {id : Nat}
    (hpc : s.main = .wait id) (hs : stepMain s = some s') :
    Advances copyable baseSize task results s s' := by
  obtain ⟨hpos, hle, hcount⟩ : MainOk WorkerThreadCount (.wait id) := hpc ▸ h.main
  have hstage : ∀ t : Fin WorkerThreadCount, StageOk (t + 1) (stage t) (.wait id) := hpc ▸ h.stageOk
  simp only [WorkerThreads.stepMain, hpc] at hs
  split_ifs at hs with hlt hflag
  · obtain rfl := Option.some.inj hs
    have hfinished : stage ⟨id - 1, hlt⟩ = .finished := by
      rw [h.worker] at hflag
      exact finished_of_flag (hstage ⟨id - 1, hlt⟩).1 hflag
    by_cases hmax : id + 1 < 2 ^ 31
    · have hinc : LoopPc.increment .wait id = .wait (id + 1) := if_pos hmax
      rw [hinc]
      refine ⟨⟨stage, h.setMain ⟨by omega, by omega, hcount⟩ fun t =>
        ⟨(hstage t).1, fun hlt' => ?_⟩⟩, ?_⟩
      · by_cases heq : t.val = id - 1
        · rwa [show t = ⟨id - 1, hlt⟩ from Fin.ext heq]
        · exact (hstage t).2 (by omega)
      · simp only [State.measure, LoopPc.measure, hpc]
        omega
    · have hinc : LoopPc.increment .wait id = .overflow := if_neg hmax
      rw [hinc]
      refine ⟨⟨stage, h.setMain ?_ fun _ => trivial⟩, ?_⟩
      · change 2 ^ 31 ≤ WorkerThreadCount + 1
        omega
      · simp only [State.measure, LoopPc.measure, hpc]
        omega
  · obtain rfl := Option.some.inj hs
    refine ⟨⟨stage, h.setMain hcount fun t => (hstage t).2 (by omega)⟩, ?_⟩
    simp only [State.measure, LoopPc.measure, hpc]
    omega

/-- A step of the calling thread. -/
theorem Inv.advances_main (h : Inv copyable baseSize task results s stage)
    (hs : stepMain s = some s') : Advances copyable baseSize task results s s' := by
  cases hpc : s.main with
  | reset id => exact h.advances_reset hpc hs
  | notify id => exact h.advances_notify hpc hs
  | wait id => exact h.advances_wait hpc hs
  | returned =>
    simp only [WorkerThreads.stepMain, hpc] at hs
    cases hs
  | overflow =>
    simp only [WorkerThreads.stepMain, hpc] at hs
    cases hs

/-- A stage with which a worker thread has been woken up fits wherever the one before it did. -/
theorem StageOk.advance {threadId : Nat} {st st' : Stage} {main : LoopPc}
    (h : StageOk threadId st main) (hst : st.Started) (hnot : st ≠ .finished) (hst' : st'.Started) :
    StageOk threadId st' main := by
  cases main with
  | reset id => exact ⟨fun _ => hst', fun hle => absurd (h.2 hle) hst.1⟩
  | notify id =>
    exact ⟨fun _ => hst', fun heq => absurd (h.2.1 heq) hst.2, fun hlt => absurd (h.2.2 hlt) hst.1⟩
  | wait id => exact ⟨hst', fun hlt => absurd (h.2 hlt) hnot⟩
  | returned => exact absurd h hnot
  | overflow => trivial

/-- A step of a worker thread. -/
theorem Inv.advances_worker (h : Inv copyable baseSize task results s stage)
    (hs : stepWorker copyable baseSize task s t = some s') :
    Advances copyable baseSize task results s s' := by
  have hw := h.worker t
  unfold WorkerThreads.stepWorker at hs
  simp only [hw] at hs
  cases hst : stage t with
  | fresh =>
    rw [hst] at hs
    cases hs
  | reset =>
    rw [hst] at hs
    cases hs
  | woken =>
    rw [hst] at hs hw
    obtain rfl := Option.some.inj hs
    have hstarted : Stage.Started .woken := ⟨by decide, by decide⟩
    refine ⟨⟨_, h.update (k := .worked) rfl h.main (fun t' _ => h.stageOk t') ?_
      (fun hst => by cases hst)⟩, ?_⟩
    · have hok := h.stageOk t
      rw [hst] at hok
      exact hok.advance hstarted (by decide) ⟨by decide, by decide⟩
    · have hmeasure := s.measure_update s.main t
        (workerAt copyable baseSize (results t) (task t) .worked)
      have hless : (workerAt copyable baseSize (results t) (task t) .worked).measure ≤ 1 := by
        obtain ⟨-, hpc | hpc⟩ := work_pc copyable baseSize
          ⟨.waiting, true, { results t with elementCount := 0 }⟩ (task t) <;>
          simp [TaskWorker.measure, workerAt, hpc]
      have htwo : (s.worker t).measure = 2 := by rw [hw]; rfl
      change State.measure ⟨s.main, Function.update s.worker t
        (workerAt copyable baseSize (results t) (task t) .worked)⟩ < _
      omega
  | worked =>
    rw [hst] at hs hw
    have hflag := (work_pc copyable baseSize
      ⟨.waiting, true, { results t with elementCount := 0 }⟩ (task t)).1
    rcases (work_pc copyable baseSize
      ⟨.waiting, true, { results t with elementCount := 0 }⟩ (task t)).2 with hpc | hpc
    · simp only [workerAt, hpc] at hs
      obtain rfl := Option.some.inj hs
      refine ⟨⟨_, h.update (k := .finished) rfl h.main (fun t' _ => h.stageOk t') ?_
        (fun _ => hpc)⟩, ?_⟩
      · have hok := h.stageOk t
        rw [hst] at hok
        exact hok.advance ⟨by decide, by decide⟩ (by decide) ⟨by decide, by decide⟩
      · have hmeasure := s.measure_update s.main t
          (workerAt copyable baseSize (results t) (task t) .finished)
        have hone : (s.worker t).measure = 1 := by
          rw [hw, workerAt, TaskWorker.measure, hpc]
        have hzero : (workerAt copyable baseSize (results t) (task t) .finished).measure = 0 := rfl
        change State.measure ⟨s.main, Function.update s.worker t
          (workerAt copyable baseSize (results t) (task t) .finished)⟩ < _
        omega
    · simp only [workerAt, hpc] at hs
      cases hs
  | finished =>
    rw [hst] at hs
    cases hs

theorem inv_step (h : ∃ stage, Inv copyable baseSize task results s stage)
    {a : Action WorkerThreadCount} (hs : step copyable baseSize task s a = some s') :
    Advances copyable baseSize task results s s' := by
  obtain ⟨stage, h⟩ := h
  cases a with
  | main => exact h.advances_main hs
  | worker t => exact h.advances_worker hs

/-- Until the return there is a next step, unless undefined behaviour has come up. -/
theorem Inv.exists_step (h : Inv copyable baseSize task results s stage)
    (hreturned : s.main ≠ .returned) (hoverflow : s.main ≠ .overflow)
    (hoverrun : ∀ t, (s.worker t).pc ≠ .overrun) :
    ∃ a s', step copyable baseSize task s a = some s' := by
  have hmain := h.main
  have hstage := h.stageOk
  cases hpc : s.main with
  | reset id =>
    refine ⟨.main, ?_⟩
    simp only [WorkerThreads.step, WorkerThreads.stepMain, hpc]
    split_ifs <;> exact ⟨_, rfl⟩
  | notify id =>
    rw [hpc] at hmain
    have hlt : id - 1 < WorkerThreadCount := by
      have := hmain.1
      have := hmain.2
      omega
    refine ⟨.main, ?_⟩
    simp only [WorkerThreads.step, WorkerThreads.stepMain, hpc]
    rw [dif_pos hlt]
    exact ⟨_, rfl⟩
  | wait id =>
    by_cases hlt : id - 1 < WorkerThreadCount
    · set t : Fin WorkerThreadCount := ⟨id - 1, hlt⟩ with ht
      rw [hpc] at hstage
      have hw := h.worker t
      -- The worker that the calling thread waits for has a step, or is done.
      cases hst : stage t with
      | fresh => exact absurd hst (hstage t).1.1
      | reset => exact absurd hst (hstage t).1.2
      | woken =>
        refine ⟨.worker t, ?_⟩
        rw [hst] at hw
        simp only [WorkerThreads.step, WorkerThreads.stepWorker, hw]
        exact ⟨_, rfl⟩
      | worked =>
        refine ⟨.worker t, ?_⟩
        rw [hst] at hw
        rcases (work_pc copyable baseSize
          ⟨.waiting, true, { results t with elementCount := 0 }⟩ (task t)).2 with hwork | hwork
        · simp only [WorkerThreads.step, WorkerThreads.stepWorker, hw, workerAt, hwork]
          exact ⟨_, rfl⟩
        · exact absurd (by rw [hw]; exact hwork) (hoverrun t)
      | finished =>
        refine ⟨.main, ?_⟩
        rw [hst] at hw
        simp only [WorkerThreads.step, WorkerThreads.stepMain, hpc]
        rw [dif_pos hlt, if_pos (by rw [← ht, hw]; rfl)]
        exact ⟨_, rfl⟩
    · refine ⟨.main, ?_⟩
      simp only [WorkerThreads.step, WorkerThreads.stepMain, hpc]
      rw [dif_neg hlt]
      exact ⟨_, rfl⟩
  | returned => exact absurd hpc hreturned
  | overflow => exact absurd hpc hoverflow

/-- Every state that a run reaches. -/
theorem inv_of_run {as : List (Action WorkerThreadCount)}
    (hrun : run (WorkerThreads.step copyable baseSize task) (called results) as = some s) :
    ∃ stage, Inv copyable baseSize task results s stage :=
  run_invariant' (P := fun s => ∃ stage, Inv copyable baseSize task results s stage)
    (fun _ _ _ h hs => (inv_step h hs).1) ⟨_, inv_called⟩ hrun

theorem length_le_measure {as : List (Action WorkerThreadCount)}
    (hrun : run (WorkerThreads.step copyable baseSize task) (called results) as = some s) :
    as.length ≤ (called results).measure :=
  length_le_of_decreasing (P := fun s => ∃ stage, Inv copyable baseSize task results s stage)
    (fun _ _ _ h hs => inv_step h hs) ⟨_, inv_called⟩ hrun

/-! ## The results -/

/-- A worker thread that has come back has stored the value of its task. -/
theorem result_workerAt {r : WorkerThreadResult} {result : Option R}
    (hpc : (workerAt copyable baseSize r result .worked).pc = .finishing) :
    ∃ r', store copyable baseSize { r with elementCount := 0 } result = some r' ∧
      (workerAt copyable baseSize r result .finished).result = r' := by
  simp only [workerAt, TaskWorker.work] at hpc ⊢
  cases hstore : store copyable baseSize { r with elementCount := 0 } result with
  | none =>
    rw [hstore] at hpc
    cases hpc
  | some r' => exact ⟨r', rfl, rfl⟩

/-- What a page holds after the call: the value that is found where the first one should be, if the task
returned one and there was room behind it. -/
structure Stored (copyable : TriviallyCopyable R) (baseSize : Nat) (r : WorkerThreadResult)
    (result : Option R) (r' : WorkerThreadResult) : Prop where
  fits : r'.Fits copyable
  count_lt : r'.elementCount < 2 ^ 32
  room : ∀ v, result = some v → 2 * copyable.size ≤ firstSize baseSize r
  values : r'.values copyable =
    (result.map fun _ => copyable.ofBytes (slice (firstBytes r) 0 copyable.size)).toList

theorem stored_of_store (hbase : 1 ≤ baseSize) {result : Option R}
    (hstore : store copyable baseSize { r with elementCount := 0 } result = some r') :
    Stored copyable baseSize r result r' := by
  cases result with
  | none =>
    obtain rfl := Option.some.inj hstore
    exact ⟨by simp [WorkerThreadResult.Fits], by simp, by simp, rfl⟩
  | some v =>
    have hsome := store_some copyable hbase { r with elementCount := 0 } v
    split_ifs at hsome with hroom
    · obtain ⟨e, heq, hfits, hone, hvalues⟩ := hsome
      obtain rfl := Option.some.inj (heq.symm.trans hstore)
      exact ⟨hfits, by omega, fun _ _ => hroom, hvalues⟩
    · rw [hstore] at hsome
      cases hsome

/-- When `ParallelForWorkerThreads` returns, iterating yields what the pages hold. -/
theorem Inv.iterate_returned (h : Inv copyable baseSize task results s stage) (hbase : 1 ≤ baseSize)
    (hmain : s.main = .returned) :
    WorkerThreadCount + 1 < 2 ^ 31 ∧
      (∀ t v, task t = some v → 2 * copyable.size ≤ firstSize baseSize (results t)) ∧
      ∃ fuel, iterate copyable s.threadResults fuel (Iterator.begin s.threadResults) =
        some ((List.finRange WorkerThreadCount).flatMap fun t => ((task t).map fun _ =>
          copyable.ofBytes (slice (firstBytes (results t)) 0 copyable.size)).toList) := by
  have hcount := h.main
  have hstage := h.stageOk
  rw [hmain] at hcount hstage
  have hstored : ∀ t, Stored copyable baseSize (results t) (task t) (s.worker t).result := fun t => by
    have hfinished : stage t = .finished := hstage t
    rw [h.worker, hfinished]
    obtain ⟨r', hstore, hr'⟩ := result_workerAt (h.stored t hfinished)
    rw [hr']
    exact stored_of_store hbase hstore
  refine ⟨hcount, fun t => (hstored t).room, ?_⟩
  have hlength : s.threadResults.length = WorkerThreadCount := by simp [State.threadResults]
  have hfits : ∀ r ∈ s.threadResults, r.Fits copyable ∧ r.elementCount < 2 ^ 32 := fun r hr => by
    obtain ⟨t, -, rfl⟩ := List.mem_map.mp hr
    exact ⟨(hstored t).fits, (hstored t).count_lt⟩
  obtain ⟨fuel, hiterate⟩ := iterate_begin
    (by rw [hlength]; exact Nat.lt_of_succ_lt (Nat.lt_trans hcount (by decide))) hfits
  refine ⟨fuel, hiterate.trans (congrArg some ?_)⟩
  rw [State.threadResults, List.flatMap_map]
  exact List.flatMap_congr fun t _ => (hstored t).values

/-- Two concatenations of parts of the same lengths are equal only if their parts are. -/
theorem eq_of_flatMap_eq {ι : Type} {f g : ι → List R} {xs : List ι}
    (hlength : ∀ x ∈ xs, (f x).length = (g x).length) (heq : xs.flatMap f = xs.flatMap g) :
    ∀ x ∈ xs, f x = g x := by
  induction xs with
  | nil => simp
  | cons x xs ih =>
    rw [List.flatMap_cons, List.flatMap_cons] at heq
    obtain ⟨hhead, htail⟩ := List.append_inj heq (hlength x (List.mem_cons_self ..))
    intro y hy
    rcases List.mem_cons.mp hy with rfl | hy
    · exact hhead
    · exact ih (fun z hz => hlength z (List.mem_cons_of_mem _ hz)) htail y hy

theorem filterMap_eq_flatMap (task : Fin WorkerThreadCount → Option R) :
    (List.finRange WorkerThreadCount).filterMap task =
      (List.finRange WorkerThreadCount).flatMap fun t => (task t).toList :=
  List.filterMap_eq_flatMap_toList ..

/-- Where there is room and every value is there already, the call returns the values. -/
theorem returnsResults_of (hbase : 1 ≤ baseSize) (hcount : WorkerThreadCount + 1 < 2 ^ 31)
    (hthere : ∀ t v, task t = some v → AlreadyThere copyable baseSize (results t) v) :
    ReturnsResults copyable baseSize task results := by
  refine ⟨fun as s hrun => ?_, _, fun as s hrun => length_le_measure hrun⟩
  obtain ⟨stage, h⟩ := inv_of_run hrun
  have hoverflow : s.main ≠ .overflow := fun hmain => by
    have hok := h.main
    rw [hmain] at hok
    exact Nat.not_lt.mpr hok hcount
  have hoverrun : ∀ t, (s.worker t).pc ≠ .overrun := fun t hpc => by
    rw [h.worker] at hpc
    cases hst : stage t <;> rw [hst] at hpc <;> try cases hpc
    -- The worker thread has run its task.
    rw [workerAt, TaskWorker.work] at hpc
    cases htask : task t with
    | none =>
      rw [htask] at hpc
      cases hpc
    | some v =>
      have hsome := store_some copyable hbase { results t with elementCount := 0 } v
      split_ifs at hsome with hroom
      · obtain ⟨r', hstore, -⟩ := hsome
        rw [htask] at hpc
        simp only [hstore] at hpc
        cases hpc
      · exact absurd (hthere t v htask).1 hroom
  refine ⟨hoverflow, hoverrun, fun hreturned => h.exists_step hreturned hoverflow hoverrun,
    fun hreturned => ?_⟩
  obtain ⟨-, -, fuel, hiterate⟩ := h.iterate_returned hbase hreturned
  refine ⟨fuel, hiterate.trans (congrArg some ?_)⟩
  rw [filterMap_eq_flatMap]
  refine List.flatMap_congr fun t _ => ?_
  cases htask : task t with
  | none => rfl
  | some v => rw [Option.map_some, (hthere t v htask).2]

/-- A call that returns the values has counted its threads and has found each value in its page. -/
theorem there_of_returnsResults (hbase : 1 ≤ baseSize)
    (hreturns : ReturnsResults copyable baseSize task results) :
    WorkerThreadCount + 1 < 2 ^ 31 ∧
      ∀ t v, task t = some v → AlreadyThere copyable baseSize (results t) v := by
  obtain ⟨hsteps, bound, hbound⟩ := hreturns
  obtain ⟨as, s, hrun, hreturned⟩ := exists_run_of_progress (P := fun s => s.main = LoopPc.returned)
    (fun as s hrun => (hsteps as s hrun).2.2.1) hbound
  obtain ⟨stage, h⟩ := inv_of_run hrun
  obtain ⟨hcount, hroom, fuel, hiterate⟩ := h.iterate_returned hbase hreturned
  obtain ⟨fuel', hiterate'⟩ := (hsteps as s hrun).2.2.2 hreturned
  have heq := iterate_unique hiterate hiterate'
  rw [filterMap_eq_flatMap] at heq
  refine ⟨hcount, fun t v htask => ⟨hroom t v htask, ?_⟩⟩
  have hparts := eq_of_flatMap_eq (fun t _ => by cases task t <;> rfl) heq t (List.mem_finRange t)
  rw [htask, Option.map_some] at hparts
  exact (List.cons.inj hparts).1

/-- **`ParallelForWorkerThreads`.** For every page base size and whatever is in the pages, the call
returns the values of the tasks exactly if its loops do not overflow their `int` and each value is the
first one of a page with room for two already. -/
theorem returnsResults_iff (copyable : TriviallyCopyable R) (baseSize WorkerThreadCount : Nat)
    (hbase : 1 ≤ baseSize) (task : Fin WorkerThreadCount → Option R)
    (results : Fin WorkerThreadCount → WorkerThreadResult) :
    ReturnsResults copyable baseSize task results ↔ WorkerThreadCount + 1 < 2 ^ 31 ∧
      ∀ t v, task t = some v → AlreadyThere copyable baseSize (results t) v :=
  ⟨there_of_returnsResults hbase, fun h => returnsResults_of hbase h.1 h.2⟩

/-- A `ParallelFor` before has left the same value at the start of each page. -/
theorem returnsResults_iff_sameValue :
    ReturnsResults copyableByte 2 (fun _ : Fin 2 => some 7) (fun _ => ⟨2, 1, fun _ => 7⟩) :=
  (returnsResults_iff copyableByte 2 2 (by decide) (fun _ => some 7) fun _ => ⟨2, 1, fun _ => 7⟩).mpr
    ⟨by decide, fun _ v hv => ⟨by decide, Option.some.inj hv⟩⟩

/-- On a new executor the first page has a zero where the value should be. -/
theorem not_returnsResults_newExecutor :
    ¬ ReturnsResults copyableByte 16 (fun _ : Fin 1 => some 7) (fun _ => ⟨0, 0, fun _ => 0⟩) := by
  intro h
  obtain ⟨-, hvalue⟩ := (there_of_returnsResults (by decide) h).2 0 7 rfl
  exact absurd hvalue (by decide)

end Machine

end WorkerThreads

end RatkiniaServer.Floweryclover.ParallelExecutor
