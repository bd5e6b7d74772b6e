import RatkiniaServer.Proofs.NetworkServer

/-!
# Threads that block themselves

The InitiateSend handler calls `SessionCleanupRoutine` inside of its own shared lock, which locks
`sessionsMutex_` again, in shared and then in exclusive mode. All other handlers unlock it first.
-/

namespace RatkiniaServer.NetworkServer

open Transition

variable {s s' : NetworkServer} {t : Nat} {p : Pc} {a : Action}

theorem toNat_pos_iff (b : Bool) : 0 < b.toNat ↔ b = true := by
  cases b <;> decide

/-- A thread that asks for the lock has it exactly if the InitiateSend handler has called it. -/
theorem Pc.holds_of_requests (h : p.requests = true) :
    0 < p.shared ∨ p.exclusive = true ↔ p.held = true := by
  cases p <;> simp_all [requests, shared, exclusive, held, toNat_pos_iff]

theorem noSelfBlock_iff (h : Inv s) :
    s.NoSelfBlock ↔ ∀ t, (s.pc t).requests = true → (s.pc t).held = false := by
  refine forall_congr' fun t => forall_congr' fun hrequests => ?_
  rw [h.locks.heldBy_iff, Pc.holds_of_requests hrequests, Bool.not_eq_true]

/-! ## The InitiateSend handler -/

theorem sendReturns_pc (handler : SendHandler) (o : Nat) (value : Bool) :
    (s.sendReturns t handler o value).pc t =
      if value then .idle
      else .cleanup (contextOf o) (decide (handler = .initiateSend)) := by
  cases handler <;> cases value <;> exact Function.update_self ..

/-- In the InitiateSend handler `TrySendAsync` goes on; where the condition is not met, the handler
calls `SessionCleanupRoutine` next, and otherwise not. -/
theorem initiateSend_spec (answers : Answers) (hq : (s.pc t).initiateSending = true) :
    ∃ s', s.runStep t answers = some s' ∧
      (s.InitiateSendSucceeds (.run t answers) → (s'.pc t).held = false) ∧
      (¬ s.InitiateSendSucceeds (.run t answers) → ∃ context, s'.pc t = .cleanup context true) := by
  have hself : ∀ p : Pc, (s.goto t p).pc t = p := fun p => Function.update_self ..
  unfold runStep InitiateSendSucceeds
  cases hpc : s.pc t with
  | trySend handler o =>
    obtain rfl : handler = .initiateSend := by simpa [hpc, Pc.initiateSending] using hq
    have hreturn := sendReturns_pc (s := s) (t := t) .initiateSend o
    simp only [hpc]
    split_ifs with honline hclose hempty
    · exact ⟨_, rfl, fun _ => by rw [hreturn]; rfl, fun h => absurd (Or.inl honline) h⟩
    · exact ⟨_, rfl, fun h => by simp_all, fun _ => ⟨contextOf o, hreturn false⟩⟩
    · exact ⟨_, rfl, fun _ => by rw [hreturn]; rfl, fun h => by simp_all⟩
    · refine ⟨_, rfl, fun _ => ?_, fun h => by simp_all⟩
      rw [setOnline, hself]
      rfl
  | sendLoop handler o =>
    obtain rfl : handler = .initiateSend := by simpa [hpc, Pc.initiateSending] using hq
    have hreturn := sendReturns_pc (s := s) (t := t) .initiateSend o
    simp only [hpc]
    split_ifs with hanswer
    · exact ⟨_, rfl, fun _ => by rw [hself]; rfl, fun h => absurd hanswer h⟩
    · exact ⟨_, rfl, fun h => absurd h hanswer, fun _ => ⟨contextOf o, hreturn false⟩⟩
  | wsaSend handler o =>
    obtain rfl : handler = .initiateSend := by simpa [hpc, Pc.initiateSending] using hq
    have hreturn := sendReturns_pc (s := s) (t := t) .initiateSend o
    simp only [hpc]
    split_ifs with hanswer
    · exact ⟨_, rfl, fun _ => by rw [post, hreturn]; rfl, fun h => absurd hanswer h⟩
    · exact ⟨_, rfl, fun h => absurd h hanswer, fun _ => ⟨contextOf o, hreturn false⟩⟩
  | _ =>
    rw [hpc] at hq
    cases hq

/-- The condition says something of the InitiateSend handler only. -/
theorem initiateSending_of_not_succeeds (h : ¬ s.InitiateSendSucceeds a) :
    ∃ t answers, a = .run t answers ∧ (s.pc t).initiateSending = true := by
  cases a with
  | start t handler => exact absurd trivial h
  | run t answers =>
    refine ⟨t, answers, rfl, ?_⟩
    unfold InitiateSendSucceeds at h
    cases hpc : s.pc t with
    | trySend handler o => cases handler <;> simp_all [Pc.initiateSending]
    | sendLoop handler o => cases handler <;> simp_all [Pc.initiateSending]
    | wsaSend handler o => cases handler <;> simp_all [Pc.initiateSending]
    | _ => simp_all

/-! ## All steps -/

/-- The invariant: no thread is in a `SessionCleanupRoutine` that the InitiateSend handler has
called. -/
structure Apart (s : NetworkServer) : Prop where
  inv : Inv s
  not_held : ∀ t, (s.pc t).held = false

theorem Apart.noSelfBlock (h : Apart s) : s.NoSelfBlock :=
  (noSelfBlock_iff h.inv).mpr fun t _ => h.not_held t

theorem Apart.step_of_succeeds (h : Apart s) (hok : s.InitiateSendSucceeds a)
    (hstep : s.step a = some s') : Apart s' := by
  obtain ⟨p, hmoves⟩ := moves_of_step hstep
  refine ⟨hmoves.inv h.inv rfl, fun u => ?_⟩
  rcases eq_or_ne u a.thread with rfl | hne
  · cases hheld : (s'.pc a.thread).held with
    | false => rfl
    | true =>
      have hp : p.held = true := by
        rw [hmoves.pc, Function.update_self] at hheld
        exact hheld
      rcases hmoves.held hp with hq | hq
      · rw [h.not_held] at hq
        cases hq
      · cases a with
        | start t handler =>
          obtain ⟨hidle, -⟩ := moves_of_startStep hstep
          change (s.pc t).initiateSending = true at hq
          rw [hidle] at hq
          cases hq
        | run t answers =>
          obtain ⟨s'', hrun, hfree, -⟩ := initiateSend_spec answers hq
          obtain rfl := Option.some.inj (hrun.symm.trans hstep)
          exact hheld.symm.trans (hfree hok)
  · rw [hmoves.pc, Function.update_of_ne hne]
    exact h.not_held u

/-- Where the condition is not met, a thread blocks itself. -/
theorem selfBlocks_of_not_succeeds (h : Inv s) (hok : ¬ s.InitiateSendSucceeds a) :
    ∃ s', s.step a = some s' ∧ ¬ s'.NoSelfBlock := by
  obtain ⟨t, answers, rfl, hq⟩ := initiateSending_of_not_succeeds hok
  obtain ⟨s', hrun, -, hfails⟩ := initiateSend_spec answers hq
  obtain ⟨context, hpc⟩ := hfails hok
  refine ⟨s', hrun, fun hall => ?_⟩
  have hfree := (noSelfBlock_iff (inv_step (a := .run t answers) h hrun)).mp hall t
  rw [hpc] at hfree
  exact Bool.noConfusion (hfree rfl)

/-- **No thread blocks itself.** In a run of the server no thread ever asks for `sessionsMutex_` while
it holds it, exactly if no `TrySendAsync` of the InitiateSend handler fails. -/
theorem always_noSelfBlock_iff (actor : String) (as : List Action) :
    Always step NoSelfBlock (init actor) as ↔ Meets step InitiateSendSucceeds (init actor) as := by
  have hstart : Apart (init actor) := ⟨inv_init actor, fun _ => rfl⟩
  have hok : ∀ {s s' : NetworkServer} {a : Action}, Apart s → s.step a = some s' →
      s'.NoSelfBlock → s.InitiateSendSucceeds a := fun {s s' a} h hstep hP => by
    by_contra hnot
    obtain ⟨s'', hstep', hblock⟩ := selfBlocks_of_not_succeeds h.inv hnot
    obtain rfl := Option.some.inj (hstep'.symm.trans hstep)
    exact hblock hP
  refine always_iff_meets (I := Apart)
    (fun s a s' h _ hstep hP => h.step_of_succeeds (hok h hstep hP) hstep)
    (fun s a s' h _ hstep => ⟨hok h hstep, fun h' => (h.step_of_succeeds h' hstep).noSelfBlock⟩)
    (fun s a h _ hnone => ?_) hstart hstart.noSelfBlock as
  by_contra hnot
  obtain ⟨s', hstep, -⟩ := selfBlocks_of_not_succeeds h.inv hnot
  rw [hnone] at hstep
  cases hstep

/-- An actor sends a message, and the session is disconnected before the InitiateSend handler runs:
the handler is at the first lock of `SessionCleanupRoutine` with its own shared lock held. -/
theorem noSelfBlock_fails : ∃ s,
    run step (init "auth")
      (let accept := Action.run 0 {}
       let actor := Action.run 1 {}
       let other := Action.run 2 {}
       let worker := Action.run 3 {}
       [.start 0 .accept, accept, accept, accept, accept,
        .start 1 (.sendMessageTo 0), actor, actor, actor, actor,
        .start 2 (.disconnectSession 0), other, other, other, other, other,
        .start 3 (.completion .initiateSend 0 true 0), worker, worker, worker]) = some s ∧
    s.pc 3 = .cleanup 0 true ∧ s.sessionsMutex.readers = [3] ∧ ¬ s.NoSelfBlock :=
  ⟨_, rfl, rfl, rfl, fun h => h 3 rfl (Or.inl (List.mem_singleton.mpr rfl))⟩

end RatkiniaServer.NetworkServer
