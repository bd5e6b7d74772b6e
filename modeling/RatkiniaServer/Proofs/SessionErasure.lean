import RatkiniaServer.Proofs.NetworkServer

/-!
# Erased sessions

`SessionCleanupRoutine` tests the flags of a session in `Close` and erases it later, in another
section. In between `SendMessageTo` may post an InitiateSend, which does not look at `shouldClose_`,
another thread may have found the session for its own `Close`, and `PostAccept` may not yet have
posted the first receive.
-/

namespace RatkiniaServer.NetworkServer

open Transition

variable {s s' : NetworkServer} {t o : Nat} {p q : Pc} {a : Action}

theorem Pc.session_of_unguarded (h : p.unguarded = some o) : p.session = some o := by
  cases p <;> simp_all [unguarded, session]

/-- A step gets a reference to a session from one that exists, or by the pointer of the thread. -/
theorem Moves.refers (hmoves : Moves s t q p s') (hq : s.pc t = q) (h : s'.Refers o) :
    s.Refers o ∨ p.session = some o := by
  rcases h with ⟨type, hpending⟩ | ⟨u, hu⟩
  · left
    have htoken := hmoves.token
    generalize s'.isIoOnline = online', s'.pending = pending' at htoken hpending
    cases htoken with
    | keep hp => exact Or.inl ⟨type, hpending⟩
    | take key hoff hkey => exact Or.inl ⟨type, hpending⟩
    | release key hkey => exact Or.inl ⟨type, hpending⟩
    | give key hkey =>
      rcases eq_or_ne (type, o) key with rfl | hne
      · exact Or.inr ⟨t, by rw [hq]; exact Pc.session_of_token (Prod.mk.inj hkey).1⟩
      · rw [Function.update_of_ne hne] at hpending
        exact Or.inl ⟨type, hpending⟩
    | accept key hpending' hkey =>
      rcases eq_or_ne (type, o) key with rfl | hne
      · exact Or.inl ⟨type, hpending'⟩
      · rw [Function.update_of_ne hne] at hpending
        exact Or.inl ⟨type, hpending⟩
  · rw [hmoves.pc] at hu
    rcases eq_or_ne u t with rfl | hne
    · rw [Function.update_self] at hu
      exact Or.inr hu
    · rw [Function.update_of_ne hne] at hu
      exact Or.inl (Or.inr ⟨u, hu⟩)

/-- An operation of the session that is on refers to it. -/
theorem Inv.refers_of_on {type : IoType} (h : Inv s) (hon : s.isIoOnline (type, o) = true) :
    s.pending (type, o) ≠ 0 ∨ ∃ u, (s.pc u).token = some (type, o) := by
  have htoken := h.tokens (type, o)
  rw [hon] at htoken
  refine htoken.exists_of_on.imp_right fun ⟨u, hu⟩ => ⟨u, ?_⟩
  simpa [Pc.owns] using hu

theorem Inv.on_of_pending {type : IoType} (h : Inv s) (hpending : s.pending (type, o) ≠ 0) :
    s.isIoOnline (type, o) = true :=
  ((h.tokens (type, o)).of_out hpending).1

theorem Inv.on_of_token {type : IoType} (h : Inv s) (htoken : (s.pc t).token = some (type, o)) :
    s.isIoOnline (type, o) = true :=
  ((h.tokens (type, o)).of_mem (Pc.owns_of_token htoken)).1

/-- The flags that `Close` tests. -/
theorem allOffline_iff : s.allOffline o = true ↔ ∀ type, s.isIoOnline (type, o) = false := by
  simp only [allOffline, Bool.and_eq_true, Bool.not_eq_true']
  constructor
  · rintro ⟨⟨hsend, hreceive⟩, hinitiate⟩ type
    cases type
    · exact hsend
    · exact hreceive
    · exact hinitiate
  · exact fun h => ⟨⟨h _, h _⟩, h _⟩

/-! ## The step that erases -/

/-- The state after the thread `t` has erased the session `o`. -/
def erased (s : NetworkServer) (t : Nat) (context : UInt32) (o : Nat) (held : Bool) :
    NetworkServer :=
  { s.unlock t (.cleanupErased context (some (s.associatedActor o)) held) with
    sessions := Function.update s.sessions context none
    shouldClose := Function.update s.shouldClose o true }

theorem runStep_erases {context : UInt32} {held : Bool} {answers : Answers}
    (hq : s.pc t = .cleanupLocked context held) (hfound : s.sessions context = some o) :
    s.runStep t answers = some (s.erased t context o held) := by
  unfold runStep
  rw [hq]
  dsimp only
  rw [hfound]
  rfl

/-- A session in the table is there under its own context only. -/
theorem Inv.not_inTable_erased {context : UInt32} {held : Bool} (h : Inv s)
    (hfound : s.sessions context = some o) : ¬ (s.erased t context o held).InTable o := by
  rintro ⟨context', ho⟩
  change Function.update s.sessions context none context' = some o at ho
  rcases eq_or_ne context' context with rfl | hne
  · rw [Function.update_self] at ho
    cases ho
  · rw [Function.update_of_ne hne] at ho
    exact hne ((h.table _ _ ho).symm.trans (h.table _ _ hfound))

theorem inTable_erased {context : UInt32} {held : Bool} {o' : Nat}
    (hfound : s.sessions context = some o) (hne : o' ≠ o) (h : s.InTable o') :
    (s.erased t context o held).InTable o' := by
  obtain ⟨context', ho'⟩ := h
  refine ⟨context', ?_⟩
  change Function.update s.sessions context none context' = some o'
  rw [Function.update_of_ne]
  · exact ho'
  · rintro rfl
    exact hne (Option.some.inj (ho'.symm.trans hfound))

/-- What refers to a session without being the thread `t`, which has no pointer, still does. -/
theorem refers_erased {context : UInt32} {held : Bool} {o' : Nat}
    (hq : s.pc t = .cleanupLocked context held) :
    (s.erased t context o held).Refers o' ↔ s.Refers o' := by
  have hpc : ∀ u, ((s.erased t context o held).pc u).session = (s.pc u).session := fun u => by
    change (Function.update s.pc t _ u).session = _
    rcases eq_or_ne u t with rfl | hne
    · rw [Function.update_self, hq]
      rfl
    · rw [Function.update_of_ne hne]
  unfold Refers
  simp only [hpc]
  rfl

/-- Erasing a session leaves nothing dangling exactly if its flags are off and no thread has an
unguarded pointer to it. -/
theorem noDangling_erased {context : UInt32} {held : Bool} (h : Inv s) (hP : s.NoDangling)
    (hq : s.pc t = .cleanupLocked context held) (hfound : s.sessions context = some o) :
    (s.erased t context o held).NoDangling ↔
      s.allOffline o = true ∧ ∀ u, (s.pc u).unguarded ≠ some o := by
  constructor
  · intro hall
    have hnone : ¬ s.Refers o := fun hrefers =>
      h.not_inTable_erased hfound (hall o ((refers_erased hq).mpr hrefers))
    refine ⟨allOffline_iff.mpr fun type => ?_, fun u hu => ?_⟩
    · cases hon : s.isIoOnline (type, o) with
      | false => rfl
      | true =>
        rcases h.refers_of_on hon with hpending | ⟨u, hu⟩
        · exact absurd (Or.inl ⟨type, hpending⟩) hnone
        · exact absurd (Or.inr ⟨u, Pc.session_of_token hu⟩) hnone
    · exact hnone (Or.inr ⟨u, Pc.session_of_unguarded hu⟩)
  · rintro ⟨hoffline, hunguarded⟩ o' hrefers
    replace hrefers := (refers_erased hq).mp hrefers
    rcases eq_or_ne o' o with rfl | hne
    · exfalso
      have hoff := allOffline_iff.mp hoffline
      rcases hrefers with ⟨type, hpending⟩ | ⟨u, hu⟩
      · exact Bool.noConfusion ((hoff type).symm.trans (h.on_of_pending hpending))
      · rcases Pc.covered hu with hshared | ⟨type, htoken⟩ | hu'
        · -- The thread holds the lock that the erasing thread holds in exclusive mode.
          have hzero := h.locks.shared_eq_zero (i := t) (by rw [hq]; rfl) u
          omega
        · exact Bool.noConfusion ((hoff type).symm.trans (h.on_of_token htoken))
        · exact hunguarded u hu'
    · exact inTable_erased hfound hne (hP o' hrefers)

/-! ## All steps -/

/-- A step leaves nothing dangling exactly if it meets the condition. -/
theorem noDangling_step (h : Inv s) (hP : s.NoDangling) (hstep : s.step a = some s') :
    s'.NoDangling ↔ s.ErasesQuiet a := by
  by_cases herases : ∃ t answers context held o, a = .run t answers ∧
      s.pc t = .cleanupLocked context held ∧ s.sessions context = some o
  · obtain ⟨t, answers, context, held, o, rfl, hq, hfound⟩ := herases
    obtain rfl := Option.some.inj ((runStep_erases hq hfound).symm.trans hstep)
    rw [noDangling_erased h hP hq hfound]
    constructor
    · rintro hquiet t' answers' context' held' o' ha hq' hfound'
      cases ha
      rw [hq] at hq'
      cases hq'
      rw [hfound] at hfound'
      cases hfound'
      exact hquiet
    · exact fun hquiet => hquiet t answers context held o rfl hq hfound
  · refine iff_of_true ?_ fun t answers context held o ha hq hfound =>
      absurd ⟨t, answers, context, held, o, ha, hq, hfound⟩ herases
    obtain ⟨p, hmoves⟩ := moves_of_step hstep
    intro o hrefers
    have htable := hmoves.table
    have hfrom := hmoves.refers rfl hrefers
    unfold InTable
    generalize s'.sessions = sessions' at htable
    cases htable with
    | keep hp =>
      rcases hfrom with hfrom | hfrom
      · exact hP o hfrom
      · rcases hp o hfrom with hsession | hrefers' | htable
        · exact hP o (Or.inr ⟨_, hsession⟩)
        · exact hP o hrefers'
        · exact htable
    | emplace o' hfree hp =>
      rcases eq_or_ne o o' with rfl | hne
      · exact ⟨contextOf o, Function.update_self ..⟩
      · rcases hfrom with hfrom | hfrom
        · obtain ⟨context, ho⟩ := hP o hfrom
          refine ⟨context, ?_⟩
          rw [Function.update_of_ne]
          · exact ho
          · rintro rfl
            rw [hfree] at ho
            cases ho
        · exact absurd (Option.some.inj (hfrom.symm.trans hp)) hne
    | erase context held o' hq hfound hp =>
      cases a with
      | start t handler =>
        obtain ⟨hidle, -⟩ := moves_of_startStep hstep
        exact absurd (hidle.symm.trans hq) nofun
      | run t answers => exact absurd ⟨t, answers, context, held, o', rfl, hq, hfound⟩ herases

/-- **No dangling session.** In a run of the server every operation that is out and every thread with a
pointer to a session finds it in the table at all times, exactly if sessions are erased only where all
three flags of them are off, no other thread is between its first `find` and the end of `Close` for
it, and `PostAccept` is past the first section of its `TryReceiveAsync`. -/
theorem always_noDangling_iff (actor : String) (as : List Action) :
    Always step NoDangling (init actor) as ↔ Meets step ErasesQuiet (init actor) as := by
  refine always_iff_meets (I := Inv) (fun s a s' h _ hstep _ => inv_step h hstep)
    (fun s a s' h hP hstep => noDangling_step h hP hstep) ?_ (inv_init actor) ?_ as
  · rintro s a - - hnone t answers context held o rfl hq hfound
    rw [step, runStep_erases hq hfound] at hnone
    cases hnone
  · rintro o (⟨type, hpending⟩ | ⟨u, hu⟩)
    · exact absurd rfl hpending
    · cases hu

/-- A client closes its connection; after `Close` has found all flags off, an actor sends a message to
the session, which is erased with the InitiateSend out. -/
theorem noDangling_fails : ∃ s,
    run step (init "auth")
      (let accept := Action.run 0 {}
       let worker := Action.run 1 {}
       let actor := Action.run 2 {}
       [.start 0 .accept, accept, accept, accept, accept,
        .start 1 (.completion .receive 0 true 0), worker, worker, worker, worker, worker, worker,
        worker, worker, worker,
        .start 2 (.sendMessageTo 0), actor, actor, actor, actor, worker, worker]) = some s ∧
    s.pending (.initiateSend, 0) = 1 ∧ ¬ s.InTable 0 ∧ ¬ s.NoDangling := by
  have hnone : ∀ context : UInt32, Function.update
      (Function.update (fun _ : UInt32 => (none : Option Nat)) (contextOf 0) (some 0)) 0 none
        context = none := fun context => by
    rcases eq_or_ne context 0 with rfl | hne
    · exact Function.update_self ..
    · rw [Function.update_of_ne hne]
      exact Function.update_of_ne hne ..
  refine ⟨_, rfl, rfl, fun ⟨context, h⟩ => ?_, fun h => ?_⟩
  · cases (hnone context).symm.trans h
  · obtain ⟨context, h⟩ := h 0 (Or.inl ⟨.initiateSend, nofun⟩)
    cases (hnone context).symm.trans h

end RatkiniaServer.NetworkServer
