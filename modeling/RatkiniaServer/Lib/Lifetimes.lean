import RatkiniaServer.Lib.Transition
import Mathlib.Data.List.Nodup
import Mathlib.Logic.Function.Basic
import Mathlib.Tactic.Common

/-!
# Lifetimes of objects

A program that constructs and destroys objects in memory by hand. A slot of the memory holds an object
or it does not; an object may be constructed where there is none, and destroyed where there is one. The
rules say what a list of destructor calls needs and leaves.
-/

namespace Lifetimes

open Transition

universe u

variable {ι : Type u} [DecidableEq ι]

/-- A placement construction or a destructor call. -/
inductive Event (ι : Type u)
  | construct (slot : ι)
  | destroy (slot : ι)
  deriving DecidableEq

/-- An event, on the slots that hold an object. -/
def step (holds : ι → Bool) : Event ι → Option (ι → Bool)
  | .construct slot => if holds slot then none else some (Function.update holds slot true)
  | .destroy slot => if holds slot then some (Function.update holds slot false) else none

/-- Every construction is in a slot that holds no object, every destruction in one that does, and in the
end every object that has been constructed has been destroyed. -/
def Balanced (events : List (Event ι)) : Prop :=
  run step (fun _ => false) events = some fun _ => false

variable {holds holds' : ι → Bool} {slot : ι} {slots : List ι}

theorem step_construct (h : holds slot = false) :
    step holds (.construct slot) = some (Function.update holds slot true) := by simp [step, h]

theorem step_destroy (h : holds slot = true) :
    step holds (.destroy slot) = some (Function.update holds slot false) := by simp [step, h]

/-- A list of destructor calls goes through exactly if the slots are different and hold objects; it
leaves the objects of the other slots. -/
theorem run_destroy_iff : run step holds (slots.map .destroy) = some holds' ↔
    slots.Nodup ∧ (∀ slot ∈ slots, holds slot = true) ∧
      holds' = fun slot => holds slot && !decide (slot ∈ slots) := by
  induction slots generalizing holds with
  | nil =>
    have hsame : (fun slot => holds slot && !decide (slot ∈ ([] : List ι))) = holds := by
      funext slot
      simp
    rw [hsame, List.map_nil, run_nil, Option.some.injEq]
    exact ⟨fun h => ⟨List.nodup_nil, by simp, h.symm⟩, fun h => h.2.2.symm⟩
  | cons slot slots ih =>
    rw [List.map_cons, run_cons_eq_some, List.nodup_cons, List.forall_mem_cons]
    constructor
    · rintro ⟨t, hstep, hrest⟩
      simp only [step] at hstep
      split_ifs at hstep with hslot
      obtain rfl := Option.some.inj hstep
      obtain ⟨hnodup, hall, rfl⟩ := ih.mp hrest
      have hnot : slot ∉ slots := fun hmem => by
        have := hall slot hmem
        rw [Function.update_self] at this
        cases this
      refine ⟨⟨hnot, hnodup⟩, ⟨hslot, fun k hk => ?_⟩, funext fun k => ?_⟩
      · have hne : k ≠ slot := fun heq => hnot (heq ▸ hk)
        rw [← hall k hk, Function.update_of_ne hne]
      · by_cases hk : k = slot
        · simp [hk]
        · simp [hk]
    · rintro ⟨⟨hnot, hnodup⟩, ⟨hslot, hall⟩, rfl⟩
      refine ⟨_, step_destroy hslot, ih.mpr ⟨hnodup, fun k hk => ?_, funext fun k => ?_⟩⟩
      · have hne : k ≠ slot := fun heq => hnot (heq ▸ hk)
        rw [Function.update_of_ne hne]
        exact hall k hk
      · by_cases hk : k = slot
        · simp [hk]
        · simp [hk]

end Lifetimes
