import RatkiniaServer.Actor.DynamicActor
import Mathlib.Tactic.Common

/-!
# The mailbox delivers in push order

What has been delivered, the rest of the vector that `Run` drains and the vector that `PushMessage`
appends to are, one after the other, what has been pushed. When `Run` begins, the vector it drains is
empty, so every `Run` swaps the two and then passes on all that had been pushed before.
-/

namespace RatkiniaServer.DynamicActor

open Transition

universe u

variable {M : Type u} {a a' : DynamicActor M}

theorem other_ne (index : Fin 2) : 1 - index ≠ index := by
  revert index
  decide

@[simp] theorem other_other (index : Fin 2) : 1 - (1 - index) = index := by
  revert index
  decide

/-! ## The invariant -/

/-- The invariant: nothing is lost, duplicated or reordered. -/
structure Inv (a : DynamicActor M) : Prop where
  order : (a.delivered.map fun d => some d.message) ++ a.rest ++ a.messageQueue a.pushIndex =
    a.pushed.map some
  here : Local a
  handlers : ∀ d ∈ a.delivered, d = a.deliver d.message

theorem inv_init (messageHandlers : UInt32 → Bool) (typeIndex : M → UInt32) :
    Inv (init messageHandlers typeIndex) where
  order := rfl
  here := rfl
  handlers := by simp [init]

/-- No null pointer is left in the rest of the vector. -/
theorem Inv.exists_of_mem_rest (h : Inv a) {x : Option M} (hx : x ∈ a.rest) : ∃ m, x = some m := by
  have hmem : x ∈ a.pushed.map some := by
    rw [← h.order]
    exact List.mem_append_left _ (List.mem_append_right _ hx)
  obtain ⟨m, -, rfl⟩ := List.mem_map.mp hmem
  exact ⟨m, rfl⟩

/-! ## Steps -/

theorem deliver_message (a : DynamicActor M) (m : M) : (a.deliver m).message = m := by
  unfold deliver
  split_ifs <;> rfl

/-- A push does not touch the vector that `Run` drains. -/
theorem Inv.pushMessage (h : Inv a) (message : Option M) : Inv (a.pushMessage message) := by
  cases message with
  | none => exact h
  | some m =>
    have hother : (a.pushMessage (some m)).messageQueue (1 - a.pushIndex) =
        a.messageQueue (1 - a.pushIndex) := Function.update_of_ne (other_ne _) _ _
    have hlocal := h.here
    have horder := h.order
    refine ⟨?_, ?_, h.handlers⟩
    · have hrest : (a.pushMessage (some m)).rest = a.rest := by
        cases hpc : a.pc with
        | looping index i size =>
          obtain rfl : index = 1 - a.pushIndex := by
            simp only [Local, hpc] at hlocal
            exact hlocal.1
          simp only [rest, DynamicActor.pushMessage, hpc]
          rw [Function.update_of_ne (other_ne _)]
        | clearing => simp only [rest, DynamicActor.pushMessage, hpc]
        | _ =>
          simp only [rest, DynamicActor.pushMessage, hpc]
          rw [Function.update_of_ne (other_ne _)]
      rw [hrest]
      simp only [DynamicActor.pushMessage, Function.update_self]
      rw [← List.append_assoc, horder, List.map_append]
      rfl
    · cases hpc : a.pc with
      | looping index i size =>
        simp only [Local, hpc] at hlocal
        obtain ⟨rfl, hsize, hrest⟩ := hlocal
        simp only [Local, DynamicActor.pushMessage, hpc]
        rw [Function.update_of_ne (other_ne _)]
        exact ⟨trivial, hsize, hrest⟩
      | clearing =>
        simp only [Local, hpc] at hlocal
        simp only [Local, DynamicActor.pushMessage, hpc]
        exact hlocal
      | _ =>
        simp only [Local, hpc] at hlocal
        simp only [Local, DynamicActor.pushMessage, hpc]
        rw [Function.update_of_ne (other_ne _)]
        exact hlocal

/-- `Run` always goes on; it keeps the invariant and comes closer to `Tick`. -/
theorem Inv.run (h : Inv a) :
    ∃ a', a.run = some a' ∧ Inv a' ∧ (a.pc ≠ .tick → a'.stepsLeft < a.stepsLeft) := by
  have horder := h.order
  have hlocal := h.here
  cases hpc : a.pc with
  | idle =>
    simp only [Local, rest, hpc] at hlocal horder
    refine ⟨{ a with pc := .entered, pushedBeforeSwap := none }, by simp only [DynamicActor.run, hpc],
      ⟨horder, hlocal, h.handlers⟩, fun _ => ?_⟩
    simp [stepsLeft, hpc]
  | entered =>
    simp only [Local, rest, hpc] at hlocal horder
    refine ⟨{ a with pc := .swapping }, ?_, ⟨horder, hlocal, h.handlers⟩, fun _ => ?_⟩
    · simp [DynamicActor.run, hpc, hlocal]
    · simp [stepsLeft, hpc]
  | swapping =>
    simp only [Local, rest, hpc] at hlocal horder
    rw [hlocal, List.append_nil] at horder
    refine ⟨{ a with
        pc := .beforeLoop
        pushIndex := 1 - a.pushIndex
        pushedBeforeSwap := some a.pushed.length }, by simp only [DynamicActor.run, hpc],
      ⟨?_, ?_, h.handlers⟩, fun _ => ?_⟩
    · simp only [rest, other_other]
      rw [hlocal, List.append_nil]
      exact horder
    · have hlen := congrArg List.length horder
      simp only [List.length_append, List.length_map] at hlen
      simp only [Local, other_other, hlen]
    · simp [stepsLeft, hpc]
  | beforeLoop =>
    simp only [Local, rest, hpc] at hlocal horder
    refine ⟨{ a with
        pc := .looping (1 - a.pushIndex) 0 (a.messageQueue (1 - a.pushIndex)).length },
      by simp only [DynamicActor.run, hpc], ⟨horder, ?_, h.handlers⟩, fun _ => ?_⟩
    · exact ⟨rfl, rfl, Nat.zero_le _, hlocal⟩
    · simp [stepsLeft, hpc]
  | looping index i size =>
    simp only [Local, rest, hpc] at hlocal horder
    obtain ⟨rfl, hsize, hle, hbefore⟩ := hlocal
    by_cases hi : i = size
    · subst hi
      refine ⟨{ a with pc := .clearing }, by simp [DynamicActor.run, hpc], ⟨?_, ?_, h.handlers⟩,
        fun _ => ?_⟩
      · rw [List.drop_of_length_le (by omega)] at horder
        exact horder
      · simpa [Local] using hbefore
      · simp [stepsLeft, hpc]
    · have hlt : i < (a.messageQueue (1 - a.pushIndex)).length := by omega
      have hdrop := List.drop_eq_getElem_cons hlt
      obtain ⟨m, hm⟩ : ∃ m, (a.messageQueue (1 - a.pushIndex))[i] = some m := by
        refine h.exists_of_mem_rest ?_
        simp only [rest, hpc]
        rw [hdrop]
        exact List.mem_cons_self ..
      rw [hdrop, hm] at horder
      refine ⟨{ a with
          pc := .looping (1 - a.pushIndex) (i + 1) size
          messageQueue := Function.update a.messageQueue (1 - a.pushIndex)
            ((a.messageQueue (1 - a.pushIndex)).set i none)
          delivered := a.delivered ++ [a.deliver m] }, ?_, ⟨?_, ?_, ?_⟩, fun _ => ?_⟩
      · have hget : (a.messageQueue (1 - a.pushIndex))[i]? = some (some m) := by
          rw [List.getElem?_eq_getElem hlt, hm]
        simp only [DynamicActor.run, hpc, if_neg hi, hget]
      · simp only [rest, Function.update_self, Function.update_of_ne (other_ne _).symm,
          List.drop_set_of_lt (Nat.lt_succ_self i)]
        rw [List.map_append, List.map_singleton, deliver_message]
        simpa using horder
      · simp only [Local, Function.update_self, List.length_set, List.length_append,
          List.length_singleton]
        refine ⟨trivial, hsize, by omega, ?_⟩
        rw [hbefore]
        congr 1
        omega
      · intro d hd
        rcases List.mem_append.mp hd with hd | hd
        · exact h.handlers d hd
        · obtain rfl := List.mem_singleton.mp hd
          rw [deliver_message]
          rfl
      · simp only [stepsLeft, hpc]
        omega
  | clearing =>
    simp only [Local, rest, hpc] at hlocal horder
    refine ⟨{ a with
        pc := .tick
        messageQueue := Function.update a.messageQueue (1 - a.pushIndex) [] },
      by simp only [DynamicActor.run, hpc], ⟨?_, ?_, h.handlers⟩, fun _ => ?_⟩
    · simp only [rest, Function.update_self, Function.update_of_ne (other_ne _).symm]
      exact horder
    · exact ⟨Function.update_self .., hlocal⟩
    · simp [stepsLeft, hpc]
  | tick =>
    simp only [Local, rest, hpc] at hlocal horder
    exact ⟨{ a with pc := .idle }, by simp only [DynamicActor.run, hpc],
      ⟨horder, hlocal.1, h.handlers⟩, fun hne => absurd rfl hne⟩

theorem inv_step {act : Action M} (h : Inv a) (hstep : step a act = some a') : Inv a' := by
  cases act with
  | pushMessage message =>
    cases hstep
    exact h.pushMessage message
  | run =>
    obtain ⟨a'', hrun, hinv, -⟩ := h.run
    obtain rfl : a'' = a' := Option.some.inj (hrun.symm.trans hstep)
    exact hinv

/-- `Run` reaches `Tick` by its own steps. -/
theorem Inv.reaches_tick (h : Inv a) :
    ∃ k a', Transition.run step a (List.replicate k .run) = some a' ∧ a'.pc = .tick := by
  induction hn : a.stepsLeft using Nat.strongRecOn generalizing a with
  | _ n ih =>
    by_cases htick : a.pc = .tick
    · exact ⟨0, a, rfl, htick⟩
    · obtain ⟨b, hrun, hinv, hless⟩ := h.run
      obtain ⟨k, c, hk, hc⟩ := ih b.stepsLeft (hn ▸ hless htick) hinv rfl
      exact ⟨k + 1, c, run_cons_eq_some.mpr ⟨b, hrun, hk⟩, hc⟩

/-! ## Runs -/

/-- **Exactly once and in push order.** Whatever the order in which threads push and `Run` goes on:
the messages delivered, the unprocessed rest of the vector that `Run` drains and the vector at
`pushIndex_` are, one after the other, the messages pushed. When `Run` reaches `Tick`, it has swapped
the vectors and delivered all that had been pushed before that; it does reach `Tick`. -/
theorem delivered_in_push_order (messageHandlers : UInt32 → Bool) (typeIndex : M → UInt32)
    (acts : List (Action M)) (a : DynamicActor M)
    (hrun : Transition.run step (init messageHandlers typeIndex) acts = some a) :
    (a.delivered.map fun d => some d.message) ++ a.rest ++ a.messageQueue a.pushIndex =
      a.pushed.map some ∧
    (a.pc = .tick → ∃ n, a.pushedBeforeSwap = some n ∧
      a.delivered.map Delivery.message = a.pushed.take n) ∧
    (∀ d ∈ a.delivered, d = a.deliver d.message) ∧
    ∃ k a', Transition.run step a (List.replicate k .run) = some a' ∧ a'.pc = .tick := by
  have h : Inv a := run_invariant' (fun _ _ _ h hs => inv_step h hs)
    (inv_init messageHandlers typeIndex) hrun
  refine ⟨h.order, fun htick => ?_, h.handlers, h.reaches_tick⟩
  have hlocal := h.here
  have horder := h.order
  simp only [Local, rest, htick] at hlocal horder
  rw [hlocal.1, List.append_nil] at horder
  refine ⟨_, hlocal.2, List.map_injective_iff.mpr (fun _ _ => Option.some.inj) ?_⟩
  rw [List.map_take, ← horder, List.map_map]
  exact (List.take_left' (List.length_map _)).symm

/-- Two messages, of which the second is pushed while `Run` delivers the first. -/
def pushWhileLooping : List (Action Nat) :=
  [.pushMessage (some 5), .run, .run, .run, .run, .run, .pushMessage (some 6), .run]

theorem delivered_in_push_order_pushWhileLooping :
    ∃ a, Transition.run step (init (fun _ => true) fun _ => 0) pushWhileLooping = some a ∧
      (a.delivered.map fun d => some d.message) ++ a.rest ++ a.messageQueue a.pushIndex =
        [some 5, some 6] :=
  ⟨_, rfl, (delivered_in_push_order (fun _ => true) (fun _ => 0) pushWhileLooping _ rfl).1⟩

end RatkiniaServer.DynamicActor
