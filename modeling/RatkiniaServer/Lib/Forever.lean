import RatkiniaServer.Lib.Transition
import Mathlib.Order.Filter.AtTopBot.Basic
import Mathlib.Order.WellFounded

/-!
# Infinite runs

An infinite run is a sequence of states and one of actions. What recurs in it is said with
`∃ᶠ k in atTop`. Liveness follows from measures: if, from some time on, steps of one kind make a
measure smaller and the others do not make it greater, then steps of that kind do not recur.
-/

namespace Transition

open Filter

universe u v w

variable {σ : Type u} {α : Type v} {step : σ → α → Option σ} {P : σ → Prop} {s : ℕ → σ} {a : ℕ → α}
  {i j k : ℕ}

/-- The actions `a` lead through the states `s`, without an end. -/
def Forever (step : σ → α → Option σ) (s : ℕ → σ) (a : ℕ → α) : Prop :=
  ∀ k, step (s k) (a k) = some (s (k + 1))

/-- The invariant rule for infinite runs, from a time on. -/
theorem Forever.invariant {ok : σ → α → Prop} (h : Forever step s a)
    (hstep : ∀ s a s', P s → ok s a → step s a = some s' → P s') (hok : ∀ j, i ≤ j → ok (s j) (a j))
    (hi : P (s i)) (hij : i ≤ j) : P (s j) := by
  induction j, hij using Nat.le_induction with
  | base => exact hi
  | succ j hij ih => exact hstep (s j) (a j) (s (j + 1)) ih (hok j hij) (h j)

theorem Forever.reachable (h : Forever step s a) (hij : i ≤ j) : Reachable step (s i) (s j) :=
  h.invariant (P := Reachable step (s i)) (fun _ _ _ hs (_ : True) ha => hs.next ha)
    (fun _ _ => trivial) (.refl _) hij

/-- If a state with `P` always has a next one, by a step of the kind whose turn it is, there is an
infinite run in which the kinds take turns. -/
theorem exists_forever {A : ℕ → α → Prop}
    (hstep : ∀ k s, P s → ∃ a s', A k a ∧ step s a = some s' ∧ P s') {s₀ : σ} (h₀ : P s₀) :
    ∃ s a, Forever step s a ∧ s 0 = s₀ ∧ ∀ k, A k (a k) := by
  choose act next hA hnext hP using fun (k : ℕ) (t : {t // P t}) => hstep k t.1 t.2
  let states (k : ℕ) : {t // P t} := k.rec ⟨s₀, h₀⟩ fun k t => ⟨next k t, hP k t⟩
  exact ⟨fun k => (states k).1, fun k => act k (states k), fun k => hnext k (states k), rfl,
    fun k => hA k (states k)⟩

/-- **The liveness rule.** Steps that make a measure smaller do not recur, if the others do not make it
greater. -/
theorem not_frequently_of_decreasing {ι : Type w} [Preorder ι] [WellFoundedLT ι] (μ : ℕ → ι)
    {active : ℕ → Prop} (hless : ∀ j, k ≤ j → active j → μ (j + 1) < μ j)
    (hstay : ∀ j, k ≤ j → ¬ active j → μ (j + 1) ≤ μ j) : ¬ ∃ᶠ j in atTop, active j := by
  intro hactive
  rw [frequently_atTop] at hactive
  have hle : ∀ j, k ≤ j → μ (j + 1) ≤ μ j := fun j hj => by
    by_cases h : active j
    · exact (hless j hj h).le
    · exact hstay j hj h
  induction hm : μ k using WellFoundedLT.induction generalizing k with
  | ind m ih =>
    obtain ⟨j, hj, hactive⟩ := hactive k
    have hmono : μ j ≤ μ k :=
      Nat.le_induction (le_refl _) (fun i hi h => (hle i hi).trans h) j hj
    have hlt : μ (j + 1) < m := hm ▸ (hless j hj hactive).trans_le hmono
    have hkj : k ≤ j + 1 := hj.trans (Nat.le_succ j)
    exact ih _ hlt (fun i hi => hless i (hkj.trans hi)) (fun i hi => hstay i (hkj.trans hi))
      (fun i hi => hle i (hkj.trans hi)) rfl

/-- The liveness rule for a goal: if a step of one kind either reaches the goal or makes a measure
smaller, and the others leave the measure as it is, the goal recurs where steps of that kind do. -/
theorem frequently_of_measure {ι : Type w} [Preorder ι] [WellFoundedLT ι] (μ : ℕ → ι)
    {active goal : ℕ → Prop}
    (hstep : ∀ j, (¬ active j ∧ μ (j + 1) = μ j) ∨ goal j ∨ μ (j + 1) < μ j)
    (hactive : ∃ᶠ j in atTop, active j) : ∃ᶠ j in atTop, goal j := by
  rw [frequently_atTop]
  intro k
  by_contra hnone
  push Not at hnone
  refine not_frequently_of_decreasing (k := k) μ (fun j hj h => ?_) (fun j hj h => ?_) hactive
  · obtain ⟨hother, -⟩ | hgoal | hless := hstep j
    · exact absurd h hother
    · exact absurd hgoal (hnone j hj)
    · exact hless
  · obtain ⟨-, heq⟩ | hgoal | hless := hstep j
    · exact heq.le
    · exact absurd hgoal (hnone j hj)
    · exact hless.le

/-- A counter that grows again and again exceeds every number. -/
theorem exists_lt_of_frequently {c : ℕ → ℕ} (hmono : ∀ k, c k ≤ c (k + 1))
    (hgrows : ∃ᶠ k in atTop, c k < c (k + 1)) (k m : ℕ) : ∃ j, k ≤ j ∧ m < c j := by
  rw [frequently_atTop] at hgrows
  induction m with
  | zero =>
    obtain ⟨j, hj, hlt⟩ := hgrows k
    exact ⟨j + 1, Nat.le_succ_of_le hj, by omega⟩
  | succ m ih =>
    obtain ⟨i, hi, hm⟩ := ih
    obtain ⟨j, hj, hlt⟩ := hgrows i
    have hle : c i ≤ c j := monotone_nat_of_le_succ hmono hj
    exact ⟨j + 1, by omega, by omega⟩

end Transition
