import Mathlib.Data.List.Basic
import Mathlib.Tactic.Push

/-!
# Runs of a partial transition function

A system is a step function `step : σ → α → Option σ`: the state after an action, or `none` where
the action is not enabled. A run is a list of actions. `Meets` says that every step of a run
satisfies a condition on the state before it, `Always` that every state a run passes through
satisfies a property; the rules below turn facts about one step into facts about whole runs.
-/

namespace Transition

universe u v

variable {σ : Type u} {α : Type v}

/-- The state after the actions `as`, provided each of them is enabled when its turn comes. -/
def run (step : σ → α → Option σ) : σ → List α → Option σ
  | s, [] => some s
  | s, a :: as => (step s a).bind fun s' => run step s' as

/-- A run from `s` leads to `t`. -/
def Reachable (step : σ → α → Option σ) (s t : σ) : Prop :=
  ∃ as, run step s as = some t

/-- Every step of the run of `as` from `s` satisfies `ok`. -/
def Meets (step : σ → α → Option σ) (ok : σ → α → Prop) : σ → List α → Prop
  | _, [] => True
  | s, a :: as => ok s a ∧ ∀ s', step s a = some s' → Meets step ok s' as

/-- `P` holds in every state that the run of `as` from `s` passes through, both ends included. -/
def Always (step : σ → α → Option σ) (P : σ → Prop) : σ → List α → Prop
  | s, [] => P s
  | s, a :: as => P s ∧ ∀ s', step s a = some s' → Always step P s' as

variable {step : σ → α → Option σ} {ok : σ → α → Prop} {P : σ → Prop}

/-- Whether a run meets a condition can be computed. -/
instance Meets.decidable [∀ s a, Decidable (ok s a)] (s : σ) :
    (as : List α) → Decidable (Meets step ok s as)
  | [] => isTrue trivial
  | a :: as =>
    match h : step s a with
    | none => decidable_of_iff (ok s a) (by simp [Meets, h])
    | some s' =>
      have := Meets.decidable s' as
      decidable_of_iff (ok s a ∧ Meets step ok s' as) (by simp [Meets, h])

@[simp] theorem run_nil (s : σ) : run step s [] = some s := rfl

theorem run_cons (s : σ) (a : α) (as : List α) :
    run step s (a :: as) = (step s a).bind fun s' => run step s' as := rfl

/-- A run of `a :: as` is a step of `a` followed by a run of `as`. -/
theorem run_cons_eq_some {s t : σ} {a : α} {as : List α} :
    run step s (a :: as) = some t ↔ ∃ s', step s a = some s' ∧ run step s' as = some t := by
  simp [run_cons, Option.bind_eq_some_iff]

/-- A run of `as ++ bs` goes on with `bs` where the run of `as` has ended. -/
theorem run_append_eq {s t : σ} {as : List α} (has : run step s as = some t) (bs : List α) :
    run step s (as ++ bs) = run step t bs := by
  induction as generalizing s with
  | nil => rw [List.nil_append, Option.some.inj has]
  | cons a as ih =>
    obtain ⟨s', hsa, hrest⟩ := run_cons_eq_some.mp has
    rw [List.cons_append, run_cons, hsa, Option.bind_some, ih hrest]

/-- A run of `as` followed by a run of `bs`. -/
theorem run_append {s t u : σ} {as bs : List α} (has : run step s as = some t)
    (hbs : run step t bs = some u) : run step s (as ++ bs) = some u :=
  (run_append_eq has bs).trans hbs

/-- **The invariant rule.** What a step that meets the condition preserves, a run whose steps all
meet the condition preserves. -/
theorem run_invariant (hstep : ∀ s a s', P s → ok s a → step s a = some s' → P s')
    {s t : σ} {as : List α} (hs : P s) (hok : Meets step ok s as) (hrun : run step s as = some t) :
    P t := by
  induction as generalizing s with
  | nil => exact Option.some.inj hrun ▸ hs
  | cons a as ih =>
    obtain ⟨s', hsa, hrest⟩ := run_cons_eq_some.mp hrun
    exact ih (hstep s a s' hs hok.1 hsa) (hok.2 s' hsa) hrest

/-- The invariant rule without a condition on the steps. -/
theorem run_invariant' (hstep : ∀ s a s', P s → step s a = some s' → P s')
    {s t : σ} {as : List α} (hs : P s) (hrun : run step s as = some t) : P t := by
  induction as generalizing s with
  | nil => exact Option.some.inj hrun ▸ hs
  | cons a as ih =>
    obtain ⟨s', hsa, hrest⟩ := run_cons_eq_some.mp hrun
    exact ih (hstep s a s' hs hsa) hrest

theorem Reachable.refl (s : σ) : Reachable step s s := ⟨[], rfl⟩

theorem Reachable.trans {s t u : σ} (hst : Reachable step s t) (htu : Reachable step t u) :
    Reachable step s u := by
  obtain ⟨as, has⟩ := hst
  obtain ⟨bs, hbs⟩ := htu
  exact ⟨as ++ bs, run_append has hbs⟩

/-- A step leads from a reachable state to a reachable one. -/
theorem Reachable.next {s t u : σ} {a : α} (h : Reachable step s t) (ha : step t a = some u) :
    Reachable step s u :=
  h.trans ⟨[a], run_cons_eq_some.mpr ⟨u, ha, rfl⟩⟩

/-- The invariant rule for the states that can be reached. -/
theorem Reachable.invariant (hstep : ∀ s a s', P s → step s a = some s' → P s') {s t : σ}
    (h : Reachable step s t) (hs : P s) : P t :=
  h.elim fun _ hrun => run_invariant' hstep hs hrun

/-- **The simulation rule.** If what `f` sees of a step of one system are steps of another, what it
sees of a run is a run of the other. -/
theorem Reachable.map {τ : Type*} {β : Type*} {step' : τ → β → Option τ} (f : σ → τ)
    (hstep : ∀ s a s', step s a = some s' → Reachable step' (f s) (f s')) {s t : σ}
    (h : Reachable step s t) : Reachable step' (f s) (f t) :=
  h.invariant (P := fun t => Reachable step' (f s) (f t))
    (fun _ a _ hreach ha => hreach.trans (hstep _ a _ ha)) (.refl _)

/-- **The progress rule.** If every step that meets the condition is enabled and preserves `P`, a run
whose steps all meet the condition goes through, and `P` holds at its end. -/
theorem run_total (hstep : ∀ s a, P s → ok s a → ∃ s', step s a = some s' ∧ P s') {s : σ}
    {as : List α} (hs : P s) (hok : Meets step ok s as) :
    ∃ t, run step s as = some t ∧ P t := by
  induction as generalizing s with
  | nil => exact ⟨s, rfl, hs⟩
  | cons a as ih =>
    obtain ⟨s', hsa, hs'⟩ := hstep s a hs hok.1
    obtain ⟨t, ht, hPt⟩ := ih hs' (hok.2 s' hsa)
    exact ⟨t, run_cons_eq_some.mpr ⟨s', hsa, ht⟩, hPt⟩

/-- The progress rule without a condition on the steps. -/
theorem run_total' (hstep : ∀ s a, P s → ∃ s', step s a = some s' ∧ P s') {s : σ} (hs : P s)
    (as : List α) : ∃ t, run step s as = some t ∧ P t := by
  induction as generalizing s with
  | nil => exact ⟨s, rfl, hs⟩
  | cons a as ih =>
    obtain ⟨s', hsa, hs'⟩ := hstep s a hs
    obtain ⟨t, ht, hPt⟩ := ih hs'
    exact ⟨t, run_cons_eq_some.mpr ⟨s', hsa, ht⟩, hPt⟩

/-- **The termination rule.** If every step makes a measure smaller, the measure bounds the length of a
run. -/
theorem length_le_of_decreasing {μ : σ → Nat}
    (hstep : ∀ s a s', P s → step s a = some s' → P s' ∧ μ s' < μ s) {s t : σ} {as : List α}
    (hs : P s) (hrun : run step s as = some t) : as.length ≤ μ s := by
  induction as generalizing s with
  | nil => exact Nat.zero_le _
  | cons a as ih =>
    obtain ⟨s', hsa, hrest⟩ := run_cons_eq_some.mp hrun
    obtain ⟨hs', hlt⟩ := hstep s a s' hs hsa
    exact Nat.succ_le_of_lt (Nat.lt_of_le_of_lt (ih hs' hrest) hlt)

/-- The termination rule where some steps come from outside: if each step with `p` makes a measure
smaller and each of the others adds at most `k` to it, the measure and the others bound the number of
steps with `p`. The steps are of a kind `A`. -/
theorem countP_le_of_decreasing {μ : σ → Nat} {A : α → Prop} {p : α → Bool} {k : Nat}
    (hstep : ∀ s a s', P s → A a → step s a = some s' → P s')
    (hless : ∀ s a s', P s → A a → p a = true → step s a = some s' → μ s' < μ s)
    (hmore : ∀ s a s', P s → A a → p a = false → step s a = some s' → μ s' ≤ μ s + k)
    {s t : σ} {as : List α} (hs : P s) (has : ∀ a ∈ as, A a) (hrun : run step s as = some t) :
    as.countP p + μ t ≤ μ s + k * as.countP fun a => !p a := by
  induction as generalizing s with
  | nil =>
    obtain rfl := Option.some.inj hrun
    simp
  | cons a as ih =>
    obtain ⟨s', hsa, hrest⟩ := run_cons_eq_some.mp hrun
    have ha := has a (List.mem_cons_self ..)
    have hle := ih (hstep s a s' hs ha hsa) (fun b hb => has b (List.mem_cons_of_mem _ hb)) hrest
    cases hp : p a with
    | true =>
      have hlt := hless s a s' hs ha hp hsa
      simp only [List.countP_cons, hp, if_true, Bool.not_true, Bool.false_eq_true, if_false,
        Nat.add_zero]
      omega
    | false =>
      have hge := hmore s a s' hs ha hp hsa
      simp only [List.countP_cons, hp, if_true, Bool.not_false, Bool.false_eq_true, if_false,
        Nat.mul_add]
      omega

/-- If there is a next step until `P` holds and runs are bounded, some run reaches `P`. -/
theorem exists_run_of_progress {s : σ} {bound : Nat}
    (hstep : ∀ as t, run step s as = some t → ¬ P t → ∃ a t', step t a = some t')
    (hbound : ∀ as t, run step s as = some t → as.length ≤ bound) :
    ∃ as t, run step s as = some t ∧ P t := by
  by_contra hnone
  push Not at hnone
  have hlong : ∀ n, ∃ as t, run step s as = some t ∧ as.length = n := by
    intro n
    induction n with
    | zero => exact ⟨[], s, rfl, rfl⟩
    | succ n ih =>
      obtain ⟨as, t, hrun, hlength⟩ := ih
      obtain ⟨a, t', ht⟩ := hstep as t hrun (hnone as t hrun)
      refine ⟨as ++ [a], t', run_append hrun (run_cons_eq_some.mpr ⟨t', ht, rfl⟩), ?_⟩
      rw [List.length_append, hlength]
      rfl
  obtain ⟨as, t, hrun, hlength⟩ := hlong (bound + 1)
  have hle := hbound as t hrun
  omega

/-- The steps of a run meet a condition that the actions of a kind meet in every state with `P`, if
such actions preserve `P`. -/
theorem meets_of_invariant {A : α → Prop} (hok : ∀ s a, P s → A a → ok s a)
    (hstep : ∀ s a s', P s → A a → step s a = some s' → P s') {s : σ} {as : List α} (hs : P s)
    (has : ∀ a ∈ as, A a) : Meets step ok s as := by
  induction as generalizing s with
  | nil => trivial
  | cons a as ih =>
    have ha := has a (List.mem_cons_self ..)
    refine ⟨hok s a hs ha, fun s' hsa => ?_⟩
    exact ih (hstep s a s' hs ha hsa) fun b hb => has b (List.mem_cons_of_mem _ hb)

theorem Meets.cons {s s' : σ} {a : α} {as : List α} (hok : ok s a) (hstep : step s a = some s')
    (h : Meets step ok s' as) : Meets step ok s (a :: as) :=
  ⟨hok, fun _ ht => Option.some.inj (hstep.symm.trans ht) ▸ h⟩

theorem Always.head {s : σ} {as : List α} (h : Always step P s as) : P s := by
  cases as with
  | nil => exact h
  | cons a as => exact h.1

/-- `Always` reaches the last state of a run. -/
theorem Always.last {s t : σ} {as : List α} (h : Always step P s as)
    (hrun : run step s as = some t) : P t := by
  induction as generalizing s with
  | nil => exact Option.some.inj hrun ▸ h
  | cons a as ih =>
    obtain ⟨s', hsa, hrest⟩ := run_cons_eq_some.mp hrun
    exact ih (h.2 s' hsa) hrest

/-- The steps of a prefix of a run meet the condition. -/
theorem Meets.of_append {s : σ} {as bs : List α} (h : Meets step ok s (as ++ bs)) :
    Meets step ok s as := by
  induction as generalizing s with
  | nil => trivial
  | cons a as ih => exact ⟨h.1, fun s' hs' => ih (h.2 s' hs')⟩

/-- The steps of the rest of a run meet the condition, from the state the prefix leads to. -/
theorem Meets.after {s t : σ} {as bs : List α} (h : Meets step ok s (as ++ bs))
    (hrun : run step s as = some t) : Meets step ok t bs := by
  induction as generalizing s with
  | nil => exact Option.some.inj hrun ▸ h
  | cons a as ih =>
    obtain ⟨s', hsa, hrest⟩ := run_cons_eq_some.mp hrun
    exact ih (h.2 s' hsa) hrest

/-- The invariant rule for all states that a run passes through. -/
theorem always_of_meets {I : σ → Prop}
    (hstep : ∀ s a s', I s → P s → ok s a → step s a = some s' → I s' ∧ P s') {s : σ} (hI : I s)
    (hP : P s) {as : List α} (hok : Meets step ok s as) : Always step P s as := by
  induction as generalizing s with
  | nil => exact hP
  | cons a as ih =>
    refine ⟨hP, fun t ht => ?_⟩
    obtain ⟨hIt, hPt⟩ := hstep s a t hI hP hok.1 ht
    exact ih hIt hPt (hok.2 t ht)

/-- A run that meets one condition meets another one that follows from it where `P` holds. -/
theorem Meets.imp {ok' : σ → α → Prop} (hok : ∀ s a, P s → ok s a → ok' s a)
    (hstep : ∀ s a s', P s → ok s a → step s a = some s' → P s') {s : σ} {as : List α} (hs : P s)
    (h : Meets step ok s as) : Meets step ok' s as := by
  induction as generalizing s with
  | nil => trivial
  | cons a as ih =>
    refine ⟨hok s a hs h.1, fun s' hsa => ?_⟩
    exact ih (hstep s a s' hs h.1 hsa) (h.2 s' hsa)

theorem Meets.of_forall (h : ∀ s a, ok s a) (s : σ) (as : List α) : Meets step ok s as := by
  induction as generalizing s with
  | nil => trivial
  | cons a as ih => exact ⟨h s a, fun t _ => ih t⟩

theorem Meets.and {pre : σ → α → Prop} {s : σ} {as : List α} (h : Meets step pre s as)
    (h' : Meets step ok s as) : Meets step (fun s a => pre s a ∧ ok s a) s as := by
  induction as generalizing s with
  | nil => trivial
  | cons a as ih => exact ⟨⟨h.1, h'.1⟩, fun t ht => ih (h.2 t ht) (h'.2 t ht)⟩

/-- Where only steps that meet the condition keep `P`, a run that keeps `P` throughout meets it. The
steps are those that meet the assumption `pre`. -/
theorem meets_of_always {I : σ → Prop} {pre : σ → α → Prop}
    (hinv : ∀ s a s', I s → P s → pre s a → step s a = some s' → P s' → I s')
    (hstep : ∀ s a s', I s → P s → pre s a → step s a = some s' → P s' → ok s a)
    (hdisabled : ∀ s a, I s → P s → step s a = none → ok s a)
    {s : σ} (hI : I s) {as : List α} (hpre : Meets step pre s as) (hP : Always step P s as) :
    Meets step ok s as := by
  induction as generalizing s with
  | nil => trivial
  | cons a as ih =>
    obtain ⟨ha, has⟩ := hpre
    obtain ⟨hPs, hall⟩ := hP
    refine ⟨?_, fun t ht => ih (hinv s a t hI hPs ha ht (hall t ht).head) (has t ht) (hall t ht)⟩
    cases hsa : step s a with
    | none => exact hdisabled s a hI hPs hsa
    | some s' => exact hstep s a s' hI hPs ha hsa (hall s' hsa).head

/-- **The exactness rule.** If a step from a state with the invariant `I` and with `P` leads to a state
with `P` exactly where it meets the condition `ok`, then a run keeps `P` throughout exactly where all
its steps meet `ok`. The steps are those that meet the assumption `pre`. -/
theorem always_iff_meets_of {I : σ → Prop} {pre : σ → α → Prop}
    (hinv : ∀ s a s', I s → P s → pre s a → step s a = some s' → P s' → I s')
    (hstep : ∀ s a s', I s → P s → pre s a → step s a = some s' → (P s' ↔ ok s a))
    (hdisabled : ∀ s a, I s → P s → step s a = none → ok s a)
    {s : σ} (hI : I s) (hP : P s) {as : List α} (hpre : Meets step pre s as) :
    Always step P s as ↔ Meets step ok s as := by
  constructor
  · intro halways
    exact meets_of_always hinv (fun s a s' hI hP ha hsa => (hstep s a s' hI hP ha hsa).mp) hdisabled hI
      hpre halways
  · intro hmeets
    refine always_of_meets (fun s a s' hI hP hok hsa => ?_) hI hP (hpre.and hmeets)
    have hP' := (hstep s a s' hI hP hok.1 hsa).mpr hok.2
    exact ⟨hinv s a s' hI hP hok.1 hsa hP', hP'⟩

/-- The exactness rule for all steps. -/
theorem always_iff_meets {I : σ → Prop}
    (hinv : ∀ s a s', I s → P s → step s a = some s' → P s' → I s')
    (hstep : ∀ s a s', I s → P s → step s a = some s' → (P s' ↔ ok s a))
    (hdisabled : ∀ s a, I s → P s → step s a = none → ok s a)
    {s : σ} (hI : I s) (hP : P s) (as : List α) : Always step P s as ↔ Meets step ok s as := by
  have hall : Meets step (fun _ _ => True) s as := .of_forall (fun _ _ => trivial) s as
  exact always_iff_meets_of (fun s a s' hI hP _ => hinv s a s' hI hP)
    (fun s a s' hI hP _ => hstep s a s' hI hP) hdisabled hI hP hall

end Transition
