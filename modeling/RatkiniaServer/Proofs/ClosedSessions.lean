import RatkiniaServer.Proofs.SessionErasure

/-!
# Closed sessions leave the table

`SessionCleanupRoutine` erases a session only when it finds all three flags off. Until then somebody
owes the erasure: an operation that is on, since whoever turns its flag off runs the routine again or
finds `shouldClose_` clear, or a thread that is on its way to the erasure.
-/

namespace RatkiniaServer.NetworkServer

open Transition

variable {s s' r : NetworkServer} {t o : Nat} {p q : Pc} {a : Action}

/-- A thread at the program counter goes on to erase the session, unless it finds one of its flags on
or `shouldClose_` clear. -/
def Pc.owes (o : Nat) : Pc → Prop
  | .acceptEmplaced o' | .trySend _ o' | .received o' _ | .rearm o' | .draining o' false => o' = o
  | .cleanupClose _ o' _ | .cleanupTest _ o' _ => o' = o
  | .cleanup context _ | .cleanupShared context _ | .cleanupFind context _ => contextOf o = context
  | .cleanupClosed context _ | .cleanupLocked context _ => contextOf o = context
  | _ => False

/-- The context for which the thread runs `SessionCleanupRoutine`. -/
def Pc.cleanupContext : Pc → Option UInt32
  | .cleanup context _ | .cleanupShared context _ | .cleanupFind context _ => some context
  | .cleanupClose context _ _ | .cleanupTest context _ _ | .cleanupClosed context _ => some context
  | .cleanupLocked context _ | .cleanupErased context _ _ => some context
  | _ => none

/-- The thread is in a handler of the session, `PostAccept` included, in `SendMessageTo` for it or in
`SessionCleanupRoutine` for its context. -/
def Pc.inside (o : Nat) (p : Pc) : Prop :=
  p.session = some o ∨ p.cleanupContext = some (contextOf o)

/-- `Close` runs on the session with the context of the routine. -/
def Pc.closesOwn : Pc → Prop
  | .cleanupClose context o _ | .cleanupTest context o _ => contextOf o = context
  | _ => True

/-- An operation of the session is on, or a thread goes on to erase it. -/
def Owed (s : NetworkServer) (o : Nat) : Prop :=
  (∃ type, s.isIoOnline (type, o) = true) ∨ ∃ t, (s.pc t).owes o

/-- The erasure of each closed session in the table is owed. -/
structure ErasureOwed (s : NetworkServer) : Prop where
  closesOwn : ∀ t, (s.pc t).closesOwn
  owed : ∀ o, s.InTable o → s.shouldClose o = true → s.Owed o

theorem Pc.inside_of_owes (hown : p.closesOwn) (h : p.owes o) : p.inside o := by
  cases p with
  | cleanupClose context o' held =>
    subst h
    exact Or.inl rfl
  | cleanupTest context o' held =>
    subst h
    exact Or.inl rfl
  | draining o' value =>
    cases value with
    | true => exact absurd h not_false
    | false => exact Or.inl (congrArg some h)
  | _ =>
    first
    | exact absurd h not_false
    | exact Or.inl (congrArg some h)
    | exact Or.inr (congrArg some h.symm)

/-- The session that is in the table under its own context. -/
theorem Inv.eq_of_found {context : UInt32} {o' : Nat} (h : Inv s)
    (hfound : s.sessions context = some o') (ho : contextOf o = context) (htable : s.InTable o) :
    o = o' := by
  obtain ⟨context', ho'⟩ := htable
  have hcontext := h.table context' o ho'
  rw [← hcontext, ho, hfound] at ho'
  exact (Option.some.inj ho').symm

/-! ## What a step does -/

/-- A step of the thread `t` from `q` to `p` hands over what it owes. -/
structure Hands (s : NetworkServer) (t : Nat) (q p : Pc) (s' : NetworkServer) : Prop where
  pc : s'.pc = Function.update s.pc t p
  closesOwn : p.closesOwn
  table : ∀ o, s'.InTable o → s.InTable o ∨ p.owes o
  close : ∀ o, s'.InTable o → s'.shouldClose o = true → s.shouldClose o = true ∨ p.owes o
  online : ∀ type o, s.isIoOnline (type, o) = true →
    s'.isIoOnline (type, o) = true ∨ p.owes o
  owes : ∀ o, q.owes o → s'.InTable o → s'.shouldClose o = true →
    p.owes o ∨ ∃ type, s'.isIoOnline (type, o) = true

/-- A step that leaves the table and `shouldClose_` alone. -/
theorem Hands.of_keep (hpc : s'.pc = Function.update s.pc t p) (hsessions : s'.sessions = s.sessions)
    (hclose : s'.shouldClose = s.shouldClose) (hown : p.closesOwn)
    (honline : ∀ type o, s.isIoOnline (type, o) = true →
      s'.isIoOnline (type, o) = true ∨ p.owes o)
    (howes : ∀ o, q.owes o → s.InTable o → s.shouldClose o = true →
      p.owes o ∨ ∃ type, s'.isIoOnline (type, o) = true) : Hands s t q p s' := by
  have htable : ∀ o, s'.InTable o ↔ s.InTable o := fun o => by
    rw [InTable, hsessions]
    rfl
  refine ⟨hpc, hown, fun o ho => Or.inl ((htable o).mp ho), ?_, honline, ?_⟩
  · intro o _ ho
    rw [hclose] at ho
    exact Or.inl ho
  · intro o hq ho hc
    rw [hclose] at hc
    exact howes o hq ((htable o).mp ho) hc

/-- A step that leaves the flags alone, too. -/
theorem Hands.of_pc (hpc : s'.pc = Function.update s.pc t p) (hsessions : s'.sessions = s.sessions)
    (hclose : s'.shouldClose = s.shouldClose) (honline : s'.isIoOnline = s.isIoOnline)
    (hown : p.closesOwn)
    (howes : ∀ o, q.owes o → s.InTable o → s.shouldClose o = true →
      p.owes o ∨ ∃ type, s.isIoOnline (type, o) = true) : Hands s t q p s' := by
  refine .of_keep hpc hsessions hclose hown ?_ ?_
  · intro type o ho
    rw [honline]
    exact Or.inl ho
  · rwa [honline]

/-- A step that turns a flag on. -/
theorem Hands.of_on (key : IoType × Nat) (hpc : s'.pc = Function.update s.pc t p)
    (hsessions : s'.sessions = s.sessions) (hclose : s'.shouldClose = s.shouldClose)
    (honline : s'.isIoOnline = Function.update s.isIoOnline key true) (hown : p.closesOwn)
    (howes : ∀ o, q.owes o → o = key.2) : Hands s t q p s' := by
  refine .of_keep hpc hsessions hclose hown ?_ ?_
  · intro type o ho
    left
    rw [honline]
    by_cases hkey : (type, o) = key
    · rw [hkey, Function.update_self]
    · rwa [Function.update_of_ne hkey]
  · intro o ho _ _
    refine Or.inr ⟨key.1, ?_⟩
    rw [howes o ho, honline, Function.update_self]

/-- A step that turns a flag off. -/
theorem Hands.of_off (key : IoType × Nat) (hpc : s'.pc = Function.update s.pc t p)
    (hsessions : s'.sessions = s.sessions) (hclose : s'.shouldClose = s.shouldClose)
    (honline : s'.isIoOnline = Function.update s.isIoOnline key false) (hown : p.closesOwn)
    (hp : p.owes key.2) (howes : ∀ o, ¬ q.owes o) : Hands s t q p s' := by
  refine .of_keep hpc hsessions hclose hown ?_ fun o ho => absurd ho (howes o)
  intro type o ho
  by_cases hkey : (type, o) = key
  · right
    rwa [← hkey] at hp
  · left
    rwa [honline, Function.update_of_ne hkey]

theorem Hands.erasureOwed (hhands : Hands s t (s.pc t) p s') (h : ErasureOwed s) :
    ErasureOwed s' where
  closesOwn u := by
    rw [hhands.pc]
    by_cases hu : u = t
    · rw [hu, Function.update_self]
      exact hhands.closesOwn
    · rw [Function.update_of_ne hu]
      exact h.closesOwn u
  owed o htable hclose := by
    have hthread : p.owes o → s'.Owed o := by
      intro ho
      refine Or.inr ⟨t, ?_⟩
      rwa [hhands.pc, Function.update_self]
    rcases hhands.table o htable with htable' | ho
    · rcases hhands.close o htable hclose with hclose' | ho
      · rcases h.owed o htable' hclose' with ⟨type, hon⟩ | ⟨u, hu⟩
        · rcases hhands.online type o hon with hon' | ho
          · exact Or.inl ⟨type, hon'⟩
          · exact hthread ho
        · by_cases hut : u = t
          · rw [hut] at hu
            rcases hhands.owes o hu htable hclose with ho | hon
            · exact hthread ho
            · exact Or.inl hon
          · refine Or.inr ⟨u, ?_⟩
            rwa [hhands.pc, Function.update_of_ne hut]
      · exact hthread ho
    · exact hthread ho

/-! ## All steps -/

/-- Where a context is not found, its session is not in the table. -/
theorem Inv.not_inTable_of_none (h : Inv s) {context : UInt32} {o : Nat}
    (hfound : s.sessions context = none) (ho : contextOf o = context) : ¬ s.InTable o := by
  rintro ⟨context', htable⟩
  have hcontext := h.table context' o htable
  rw [← hcontext, ho, hfound] at htable
  cases htable

/-- A step of a thread hands over what it owes. -/
theorem Runs.hands (hruns : Runs s t q p r) (h : Inv s) (hclosesOwn : q.closesOwn) :
    Hands s t q p (r.goto t p) := by
  cases hruns with
  | acceptLocked o hfree =>
    refine ⟨rfl, trivial, ?_, fun _ _ ho => Or.inl ho, fun _ _ ho => Or.inl ho,
      fun _ ho => absurd ho not_false⟩
    rintro o' ⟨context, ho'⟩
    change Function.update s.sessions (contextOf o) (some o) context = some o' at ho'
    by_cases hcontext : context = contextOf o
    · rw [hcontext, Function.update_self] at ho'
      exact Or.inr (Option.some.inj ho')
    · rw [Function.update_of_ne hcontext] at ho'
      exact Or.inl ⟨context, ho'⟩
  | acceptEmplaced | trySend | rearm =>
    exact .of_on _ rfl rfl rfl rfl trivial fun _ ho => ho.symm
  | messagePushed => exact .of_on _ rfl rfl rfl rfl trivial fun _ ho => absurd ho not_false
  | acceptReceiving_fails | failed | postSendLocked | initiateSendLocked | sendLoop_fails
  | wsaSend_fails | postReceiveLocked | rearming_fails =>
    exact .of_off _ rfl rfl rfl rfl trivial rfl fun _ => not_false
  | acceptEmplaced_fails | trySend_fails | drained_fails =>
    exact .of_pc rfl rfl rfl rfl trivial fun _ ho _ _ => Or.inl (congrArg contextOf ho).symm
  | trySend_nothing handler o hnothing =>
    refine .of_pc rfl rfl rfl rfl trivial fun o' ho' _ hclosed => Or.inr ?_
    rw [show o = o' from ho'] at hnothing
    rcases hnothing with honline | hopen
    · exact ⟨.send, honline⟩
    · -- Nothing is owed, since the session is not closed.
      rw [hopen] at hclosed
      cases hclosed
  | postReceive | received | received_fails | rearm_fails | dispatch | cleanup | cleanupShared
  | cleanupClosed => exact .of_pc rfl rfl rfl rfl trivial fun _ ho _ _ => Or.inl ho
  | cleanupFind context held o hfound =>
    exact .of_pc rfl rfl rfl rfl (h.table context o hfound)
      fun o' ho' htable _ => Or.inl (h.eq_of_found hfound ho' htable).symm
  | cleanupFind_none context held hfound | erase_none context held hfound =>
    exact .of_pc rfl rfl rfl rfl trivial
      fun o ho hin _ => absurd hin (h.not_inTable_of_none hfound ho)
  | cleanupClose context o held =>
    refine ⟨rfl, hclosesOwn, fun _ ho => Or.inl ho, ?_, fun _ _ ho => Or.inl ho,
      fun _ ho _ _ => Or.inl ho⟩
    intro o' _ hclose
    change Function.update s.shouldClose o true o' = true at hclose
    by_cases ho' : o' = o
    · exact Or.inr ho'.symm
    · rw [Function.update_of_ne ho'] at hclose
      exact Or.inl hclose
  | cleanupTest context o held hoffline =>
    refine .of_pc rfl rfl rfl rfl trivial fun o' ho' _ _ => Or.inl ?_
    rw [← show o = o' from ho']
    exact hclosesOwn
  | cleanupTest_online context o held honline =>
    refine .of_pc rfl rfl rfl rfl trivial fun o' ho' _ _ => Or.inr ?_
    rw [← show o = o' from ho']
    by_contra hnone
    refine honline (allOffline_iff.mpr fun type => ?_)
    exact Bool.eq_false_iff.mpr fun hon => hnone ⟨type, hon⟩
  | erase context held o hfound =>
    have hgone : ¬ (s.erased t context o held).InTable o := h.not_inTable_erased hfound
    have htable : ∀ o', (s.erased t context o held).InTable o' → s.InTable o' := by
      rintro o' ⟨context', ho'⟩
      change Function.update s.sessions context none context' = some o' at ho'
      by_cases hcontext : context' = context
      · rw [hcontext, Function.update_self] at ho'
        cases ho'
      · rw [Function.update_of_ne hcontext] at ho'
        exact ⟨context', ho'⟩
    refine ⟨rfl, trivial, fun o' ho' => Or.inl (htable o' ho'), ?_, fun _ _ ho => Or.inl ho, ?_⟩
    · intro o' ho' hclose
      change Function.update s.shouldClose o true o' = true at hclose
      by_cases ho : o' = o
      · rw [ho] at ho'
        exact absurd ho' hgone
      · rw [Function.update_of_ne ho] at hclose
        exact Or.inl hclose
    · intro o' howes ho' _
      rw [h.eq_of_found hfound howes (htable o' ho')] at ho'
      exact absurd ho' hgone
  | _ => exact .of_pc rfl rfl rfl rfl trivial fun _ ho => absurd ho not_false

/-- A thread that is idle owes nothing, whatever it begins with. -/
theorem Begins.hands {handler : Handler} (h : Begins s handler p r) :
    Hands s t .idle p (r.goto t p) := by
  cases h
  all_goals exact .of_pc rfl rfl rfl rfl trivial fun _ ho => absurd ho not_false

/-- Every step keeps the erasures owed. -/
theorem erasureOwed_step (h : Inv s) (howed : ErasureOwed s) (hstep : s.step a = some s') :
    ErasureOwed s' := by
  cases a with
  | start t handler =>
    obtain ⟨hq, p, r, hbegins, rfl⟩ := begins_of_startStep hstep
    have hhands : Hands s t (s.pc t) p (r.goto t p) := hq ▸ hbegins.hands
    exact hhands.erasureOwed howed
  | run t answers =>
    obtain ⟨p, r, hruns, rfl⟩ := runs_of_runStep hstep
    exact (hruns.hands h (howed.closesOwn t)).erasureOwed howed

/-- In every state that a run reaches the invariant holds and the erasures are owed. -/
theorem erasureOwed_run {actor : String} {as : List Action} (h : run step (init actor) as = some s) :
    Inv s ∧ ErasureOwed s := by
  refine run_invariant' (P := fun s => Inv s ∧ ErasureOwed s) ?_ ⟨inv_init actor, ?_⟩ h
  · rintro s a s' ⟨hinv, howed⟩ hstep
    exact ⟨inv_step hinv hstep, erasureOwed_step hinv howed hstep⟩
  · refine ⟨fun _ => trivial, fun o ⟨context, ho⟩ _ => ?_⟩
    cases ho

/-- **A closed session is not stranded.** In every state that the server reaches, a session with
`shouldClose_` set, without an operation that is out, and without a thread in one of its handlers, in
`SendMessageTo` for it or in `SessionCleanupRoutine` for its context, is not in the table. -/
theorem not_inTable_of_quiet {actor : String} {as : List Action}
    (hrun : run step (init actor) as = some s) (hclose : s.shouldClose o = true)
    (hpending : ∀ type, s.pending (type, o) = 0) (hthreads : ∀ t, ¬ (s.pc t).inside o) :
    ¬ s.InTable o := by
  obtain ⟨hinv, howed⟩ := erasureOwed_run hrun
  intro htable
  rcases howed.owed o htable hclose with ⟨type, hon⟩ | ⟨t, ht⟩
  · rcases hinv.refers_of_on hon with hout | ⟨t, ht⟩
    · exact hout (hpending type)
    · exact hthreads t (Or.inl (Pc.session_of_token ht))
  · exact hthreads t (Pc.inside_of_owes (howed.closesOwn t) ht)

/-- A client closes its connection; the worker that completes the receive erases the session. -/
def disconnectRun : List Action :=
  let accept := Action.run 0 {}
  let worker := Action.run 1 {}
  [.start 0 .accept, accept, accept, accept, accept,
    .start 1 (.completion .receive 0 true 0), worker, worker, worker, worker, worker, worker,
    worker, worker, worker, worker, worker, worker]

theorem not_inTable_of_quiet_disconnect : ∃ s, run step (init "auth") disconnectRun = some s ∧
    ¬ s.InTable 0 := by
  refine ⟨_, rfl, not_inTable_of_quiet (show run step (init "auth") disconnectRun = _ from rfl) rfl
    ?_ ?_⟩
  · intro type
    cases type <;> rfl
  · intro t ht
    match t with
    | 0 | 1 | t + 2 => exact ht.elim nofun nofun

end RatkiniaServer.NetworkServer
