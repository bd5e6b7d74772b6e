import RatkiniaServer.Proofs.DisconnectNotices
import RatkiniaServer.Proofs.SessionsMutex

/-!
# Calls of the network

`SendMessageTo` and `DisconnectSession` have no loop: each call takes a bounded number of steps, but may
have to wait for `sessionsMutex_`. Where no thread blocks itself, whoever holds the mutex asks for nothing
and can go on; so a thread in a call can go on, or it waits for another thread that can.
-/

namespace RatkiniaServer.NetworkServer

variable {s s' r : NetworkServer} {t u : Nat} {p q : Pc} {name : String}

/-! ## The steps of a call -/

/-- The thread is idle or in a call of `SendMessageTo` or of `DisconnectSession`. -/
def Pc.calling : Pc → Bool
  | .idle | .message _ | .messageLocked _ | .messagePushed _ | .messageInitiating _ => true
  | .cleanup _ held | .cleanupShared _ held | .cleanupFind _ held | .cleanupClose _ _ held => !held
  | .cleanupTest _ _ held | .cleanupClosed _ held | .cleanupLocked _ held => !held
  | .cleanupErased _ _ held => !held
  | _ => false

/-- The steps after which a call has returned, at the latest. -/
def Pc.callLeft : Pc → Nat
  | .message _ => 4
  | .messageLocked _ => 3
  | .messagePushed _ => 2
  | .messageInitiating _ => 1
  | .cleanup _ _ => 8
  | .cleanupShared _ _ => 7
  | .cleanupFind _ _ => 6
  | .cleanupClose _ _ _ => 5
  | .cleanupTest _ _ _ => 4
  | .cleanupClosed _ _ => 3
  | .cleanupLocked _ _ => 2
  | .cleanupErased _ _ _ => 1
  | _ => 0

/-- A step of a call brings its end closer. -/
theorem Runs.calling (h : Runs s t q p r) (hq : q.calling = true) :
    p.calling = true ∧ p.callLeft < q.callLeft := by
  cases h with
  | message | messageLocked | messageLocked_none | messagePushed | messagePushed_online
  | messageInitiating => exact ⟨rfl, by simp [Pc.callLeft]⟩
  | cleanup | cleanupShared | cleanupFind | cleanupClose | cleanupTest | cleanupClosed | erase
  | erase_none => exact ⟨hq, by simp [Pc.callLeft]⟩
  | cleanupFind_none | cleanupTest_online | notify | notify_none =>
    exact ⟨rfl, by simp [Pc.callLeft]⟩
  | _ => cases hq

/-- Only the thread of a step moves; in a call it moves towards the end of it. -/
theorem calling_step {a : Action} (hq : (s.pc t).calling = true)
    (hstart : ∀ u handler, a = .start u handler → u ≠ t) (hstep : s.step a = some s') :
    (a.thread ≠ t ∧ s'.pc t = s.pc t) ∨
      (a.thread = t ∧ s.pc t ≠ .idle ∧ (s'.pc t).calling = true ∧
        (s'.pc t).callLeft < (s.pc t).callLeft) := by
  rcases eq_or_ne a.thread t with rfl | hne
  · right
    cases a with
    | start u handler => exact absurd rfl (hstart u handler rfl)
    | run u answers =>
      obtain ⟨p, r, hruns, rfl⟩ := runs_of_runStep hstep
      change (s.pc u).calling = true at hq
      obtain ⟨hcalling, hless⟩ := hruns.calling hq
      have hpc : (r.goto u p).pc u = p := Function.update_self ..
      have hbusy : s.pc u ≠ .idle := by
        intro hidle
        rw [hidle] at hless
        exact Nat.not_lt_zero _ hless
      refine ⟨rfl, hbusy, ?_⟩
      change ((r.goto u p).pc u).calling = true ∧ ((r.goto u p).pc u).callLeft < (s.pc u).callLeft
      rw [hpc]
      exact ⟨hcalling, hless⟩
  · obtain ⟨p, hmoves⟩ := moves_of_step hstep
    exact Or.inl ⟨hne, by rw [hmoves.pc, Function.update_of_ne hne.symm]⟩

/-- The two calls begin where the thread is idle. -/
theorem calling_start {handler : Handler}
    (hcall : (∃ context, handler = .sendMessageTo context) ∨
      ∃ context, handler = .disconnectSession context)
    (hstep : s.step (.start t handler) = some s') :
    s.pc t = .idle ∧ (s'.pc t).calling = true ∧ (∀ u, u ≠ t → s'.pc u = s.pc u) ∧
      s'.created = s.created := by
  obtain ⟨hidle, p, r, hbegins, rfl⟩ := begins_of_startStep hstep
  have hne (q : Pc) (u : Nat) (hu : u ≠ t) : (s.goto t q).pc u = s.pc u := Function.update_of_ne hu _ _
  obtain ⟨context, rfl⟩ | ⟨context, rfl⟩ := hcall
  · cases hbegins
    exact ⟨hidle, by simp [goto, Pc.calling], hne _, rfl⟩
  · cases hbegins
    exact ⟨hidle, by simp [goto, Pc.calling], hne _, rfl⟩

theorem Runs.created_eq (h : Runs s t q p r) : r.created = s.created := by
  cases h <;> rfl

/-! ## Who can go on -/

/-- A thread that asks for no lock can go on, unless its session cannot be emplaced. -/
theorem exists_run_of_not_requests (hidle : s.pc t ≠ .idle) (hrequests : (s.pc t).requests = false)
    (hfree : ∀ o, s.pc t = .acceptLocked o → s.sessions (contextOf o) = none) :
    ∃ s', s.runStep t {} = some s' := by
  rw [← Option.isSome_iff_exists]
  unfold runStep
  cases hpc : s.pc t with
  | idle => exact absurd hpc hidle
  | acceptLocked o =>
    have hnone := hfree o hpc
    simp [hnone]
  | acceptCreated | postSend | initiateSend | postReceive | message | change | cleanup
  | cleanupClosed => simp [hpc, Pc.requests] at hrequests
  | acceptEmplaced o | trySend handler o | rearm o | messagePushed o | cleanupTest context o held =>
    simp only []
    split_ifs <;> rfl
  | messageLocked context | cleanupFind context held | cleanupLocked context held =>
    cases hfound : s.sessions context <;> simp [hfound]
  | changeLocked context current new =>
    cases hfound : s.sessions context with
    | none => simp [hfound]
    | some o =>
      simp only [hfound]
      split_ifs <;> rfl
  | received o bytesTransferred =>
    simp only []
    split_ifs <;> rfl
  | cleanupErased context actor held => cases actor <;> rfl
  | _ => rfl

/-- A thread that asks for the lock gets it, or somebody holds it. -/
theorem exists_run_or_heldBy (hrequests : (s.pc t).requests = true) :
    (∃ s', s.runStep t {} = some s') ∨ ∃ u, s.sessionsMutex.HeldBy u := by
  have hshared (p : Pc) : (∃ s', s.lockShared t p = some s') ∨ ∃ u, s.sessionsMutex.HeldBy u := by
    cases hlock : s.sessionsMutex.lockShared t with
    | none => exact Or.inr (SharedMutex.exists_heldBy_of_lockShared hlock)
    | some m => exact Or.inl ⟨_, by rw [lockShared, hlock, Option.map_some]⟩
  have hexclusive (p : Pc) : (∃ s', s.lock t p = some s') ∨ ∃ u, s.sessionsMutex.HeldBy u := by
    cases hlock : s.sessionsMutex.lock t with
    | none => exact Or.inr (SharedMutex.exists_heldBy_of_lock hlock)
    | some m => exact Or.inl ⟨_, by rw [lock, hlock, Option.map_some]⟩
  unfold runStep
  cases hpc : s.pc t with
  | acceptCreated | change | cleanupClosed => exact hexclusive _
  | postSend | initiateSend | postReceive | message | cleanup => exact hshared _
  | _ => simp [hpc, Pc.requests] at hrequests

/-- **No deadlock.** Where no thread blocks itself, a thread that is not idle can go on, or it waits for
the lock and another thread, which holds it, can go on. -/
theorem Apart.exists_run (h : Apart s)
    (hfree : ∀ u o, s.pc u = .acceptLocked o → s.sessions (contextOf o) = none)
    (hidle : s.pc t ≠ .idle) :
    (∃ s', s.runStep t {} = some s') ∨
      ((s.pc t).requests = true ∧ ∃ u, u ≠ t ∧ s.sessionsMutex.HeldBy u ∧
        ∃ s', s.runStep u {} = some s') := by
  cases hrequests : (s.pc t).requests with
  | false => exact Or.inl (exists_run_of_not_requests hidle hrequests (hfree t))
  | true =>
    refine (exists_run_or_heldBy hrequests).imp_right fun ⟨u, hheld⟩ => ⟨rfl, u, ?_, hheld, ?_⟩
    · rintro rfl
      exact h.noSelfBlock u hrequests hheld
    · refine exists_run_of_not_requests (fun hpc => ?_) ?_ (hfree u)
      · rw [h.inv.locks.heldBy_iff, hpc] at hheld
        simp [Pc.shared, Pc.exclusive] at hheld
      · rw [← Bool.not_eq_true]
        exact fun hasks => h.noSelfBlock u hasks hheld

/-- A session that is to be emplaced finds its place free, if there are at most 2³² sessions. -/
theorem Accounted.free_of_acceptLocked {r : Recorded} (hinv : Inv r.server) (h : Accounted r)
    (hcount : r.server.created ≤ 2 ^ 32) {o : Nat} (hpc : r.server.pc t = .acceptLocked o) :
    r.server.sessions (contextOf o) = none := by
  cases hfound : r.server.sessions (contextOf o) with
  | none => rfl
  | some o' =>
    obtain ⟨ho, hnot, -⟩ := h.accepts t o (by rw [hpc]; rfl)
    have hin : r.server.InTable o' := ⟨_, hfound⟩
    obtain rfl := contextOf_inj hcount (h.table o' hin) ho (hinv.table _ o' hfound)
    exact absurd hin hnot

/-! ## The associated actor -/

/-- The thread is in no `ChangeAssociatedActor`, and notifies the actor of the name if any. -/
def Pc.notifiesOnly (name : String) : Pc → Prop
  | .change _ _ _ | .changeLocked _ _ _ => False
  | .cleanupErased _ (some actor) _ => actor = name
  | _ => True

/-- All sessions are associated with the actor of the name, and are going to be. -/
structure Associated (name : String) (s : NetworkServer) : Prop where
  initial : s.initialAssociatedActor = name
  sessions : ∀ o, s.associatedActor o = name
  threads : ∀ t, (s.pc t).notifiesOnly name

theorem associated_init (name : String) : Associated name (init name) :=
  ⟨rfl, fun _ => rfl, fun _ => trivial⟩

theorem Runs.associated (h : Runs s t q p r) (hs : Associated name s) (hq : q.notifiesOnly name) :
    p.notifiesOnly name ∧ r.initialAssociatedActor = s.initialAssociatedActor ∧
      r.associatedActor = s.associatedActor ∧ r.pc = s.pc := by
  cases h with
  | erase context held o => exact ⟨hs.sessions o, rfl, rfl, rfl⟩
  | change | changeLocked | changeLocked_fails => exact hq.elim
  | _ => exact ⟨trivial, rfl, rfl, rfl⟩

theorem Begins.associated {handler : Handler} (h : Begins s handler p r) (hs : Associated name s)
    (hhandler : ∀ context new, handler ≠ .changeAssociatedActor context new)
    (hhandler' : ∀ context current new, handler ≠ .tryChangeAssociatedActor context current new) :
    p.notifiesOnly name ∧ r.initialAssociatedActor = s.initialAssociatedActor ∧
      (∀ o, r.associatedActor o = name) ∧ r.pc = s.pc := by
  cases h with
  | accept =>
    refine ⟨trivial, rfl, fun o => ?_, rfl⟩
    simp only [Function.update_apply, hs.initial, hs.sessions, ite_self]
  | changeAssociatedActor context new => exact absurd rfl (hhandler context new)
  | tryChangeAssociatedActor context current new => exact absurd rfl (hhandler' context current new)
  | _ => exact ⟨trivial, rfl, hs.sessions, rfl⟩

/-- Nobody changes the associated actor of a session but the two calls for it. -/
theorem Associated.step {a : Action} (h : Associated name s)
    (hhandler : ∀ t context new, a ≠ .start t (.changeAssociatedActor context new))
    (hhandler' : ∀ t context current new, a ≠ .start t (.tryChangeAssociatedActor context current new))
    (hstep : s.step a = some s') : Associated name s' := by
  cases a with
  | start t handler =>
    obtain ⟨-, p, r, hbegins, rfl⟩ := begins_of_startStep hstep
    obtain ⟨hp, hinitial, hsessions, hpc⟩ := hbegins.associated h
      (fun context new heq => hhandler t context new (by rw [heq]))
      (fun context current new heq => hhandler' t context current new (by rw [heq]))
    refine ⟨hinitial.trans h.initial, hsessions, fun u => ?_⟩
    rcases eq_or_ne u t with rfl | hne
    · simpa [goto] using hp
    · simpa [goto, hne, hpc] using h.threads u
  | run t answers =>
    obtain ⟨p, r, hruns, rfl⟩ := runs_of_runStep hstep
    obtain ⟨hp, hinitial, hsessions, hpc⟩ := hruns.associated h (h.threads t)
    refine ⟨hinitial.trans h.initial, fun o => ?_, fun u => ?_⟩
    · exact (congrFun hsessions o).trans (h.sessions o)
    · rcases eq_or_ne u t with rfl | hne
      · simpa [goto] using hp
      · simpa [goto, hne, hpc] using h.threads u

end RatkiniaServer.NetworkServer
