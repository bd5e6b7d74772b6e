import RatkiniaServer.NetworkServer

/-!
# The steps of the threads of a `NetworkServer`

`Runs` and `Begins` say what a step of a thread can do: from where to where it goes, what the step finds
in the state and what it changes. Whatever is proved about all steps is proved by cases on them.
-/

namespace RatkiniaServer

/-- The InitiateSend handler holds the table while it cleans up. -/
def SendHandler.holds : SendHandler → Bool
  | .postSend => false
  | .initiateSend => true

namespace NetworkServer

variable {s s' : NetworkServer} {t : Nat}

/-- The thread `t` unlocks `sessionsMutex_` in shared mode if `b` holds. -/
def unlockSharedIf (s : NetworkServer) (t : Nat) (b : Bool) : NetworkServer :=
  { s with sessionsMutex := bif b then s.sessionsMutex.unlockShared t else s.sessionsMutex }

theorem sendReturns_true (handler : SendHandler) (o : Nat) :
    s.sendReturns t handler o true = (s.unlockSharedIf t true).goto t .idle := by
  cases handler <;> rfl

theorem sendReturns_false (handler : SendHandler) (o : Nat) :
    s.sendReturns t handler o false =
      (s.unlockSharedIf t !handler.holds).goto t (.cleanup (contextOf o) handler.holds) := by
  cases handler <;> rfl

theorem cleanupReturns_eq (held : Bool) :
    s.cleanupReturns t held = (s.unlockSharedIf t held).goto t .idle := by
  cases held <;> rfl

/-- A step of the thread `t` from `q` to `p` may find the state `s` and leave the state `r`, where the
thread has still to go on. -/
inductive Runs (s : NetworkServer) (t : Nat) : (q p : Pc) → (r : NetworkServer) → Prop
  -- PostAccept
  | acceptCreated (o) {m} (hm : s.sessionsMutex.lock t = some m) :
      Runs s t (.acceptCreated o) (.acceptLocked o) { s with sessionsMutex := m }
  | acceptLocked (o) (hfree : s.sessions (contextOf o) = none) :
      Runs s t (.acceptLocked o) (.acceptEmplaced o) { s with
        sessions := Function.update s.sessions (contextOf o) (some o)
        sessionsMutex := s.sessionsMutex.unlock }
  | acceptEmplaced (o) (hoff : s.isIoOnline (.receive, o) = false) (hopen : s.shouldClose o = false) :
      Runs s t (.acceptEmplaced o) (.acceptReceiving o) (s.setOnline (.receive, o) true)
  | acceptEmplaced_fails (o) (h : s.isIoOnline (.receive, o) = true ∨ s.shouldClose o = true) :
      Runs s t (.acceptEmplaced o) (.cleanup (contextOf o) false) s
  | acceptReceiving (o) : Runs s t (.acceptReceiving o) .idle (s.post (.receive, o))
  | acceptReceiving_fails (o) :
      Runs s t (.acceptReceiving o) (.cleanup (contextOf o) false) (s.setOnline (.receive, o) false)
  -- The failed-I/O branch
  | failed (type o) :
      Runs s t (.failed type o) (.cleanup (contextOf o) false) (s.setOnline (type, o) false)
  -- PostSend and the InitiateSend handler
  | postSend (o) {m} (hm : s.sessionsMutex.lockShared t = some m) :
      Runs s t (.postSend o) (.postSendLocked o) { s with sessionsMutex := m }
  | postSendLocked (o) :
      Runs s t (.postSendLocked o) (.trySend .postSend o) (s.setOnline (.send, o) false)
  | initiateSend (o) {m} (hm : s.sessionsMutex.lockShared t = some m) :
      Runs s t (.initiateSend o) (.initiateSendLocked o) { s with sessionsMutex := m }
  | initiateSendLocked (o) : Runs s t (.initiateSendLocked o) (.trySend .initiateSend o)
      (s.setOnline (.initiateSend, o) false)
  | trySend (handler o) (hoff : s.isIoOnline (.send, o) = false) (hopen : s.shouldClose o = false) :
      Runs s t (.trySend handler o) (.sendLoop handler o) (s.setOnline (.send, o) true)
  | trySend_nothing (handler o) (h : s.isIoOnline (.send, o) = true ∨ s.shouldClose o = false) :
      Runs s t (.trySend handler o) .idle (s.unlockSharedIf t true)
  | trySend_fails (handler o) (hclose : s.shouldClose o = true) :
      Runs s t (.trySend handler o) (.cleanup (contextOf o) handler.holds)
        (s.unlockSharedIf t !handler.holds)
  | sendLoop (handler o) : Runs s t (.sendLoop handler o) (.wsaSend handler o) s
  | sendLoop_fails (handler o) :
      Runs s t (.sendLoop handler o) (.cleanup (contextOf o) handler.holds)
        ((s.unlockSharedIf t !handler.holds).setOnline (.send, o) false)
  | wsaSend (handler o) :
      Runs s t (.wsaSend handler o) .idle ((s.unlockSharedIf t true).post (.send, o))
  | wsaSend_fails (handler o) :
      Runs s t (.wsaSend handler o) (.cleanup (contextOf o) handler.holds)
        ((s.unlockSharedIf t !handler.holds).setOnline (.send, o) false)
  -- PostReceive
  | postReceive (o n) {m} (hm : s.sessionsMutex.lockShared t = some m) :
      Runs s t (.postReceive o n) (.postReceiveLocked o n) { s with sessionsMutex := m }
  | postReceiveLocked (o n) :
      Runs s t (.postReceiveLocked o n) (.received o n) (s.setOnline (.receive, o) false)
  | received (o n) : Runs s t (.received o n) (.rearm o) s
  | received_fails (o n) : Runs s t (.received o n) (.draining o false) s
  | rearm (o) (hoff : s.isIoOnline (.receive, o) = false) (hopen : s.shouldClose o = false) :
      Runs s t (.rearm o) (.rearming o) (s.setOnline (.receive, o) true)
  | rearm_fails (o) (h : s.isIoOnline (.receive, o) = true ∨ s.shouldClose o = true) :
      Runs s t (.rearm o) (.draining o false) s
  | rearming (o) : Runs s t (.rearming o) (.draining o true) (s.post (.receive, o))
  | rearming_fails (o) :
      Runs s t (.rearming o) (.draining o false) (s.setOnline (.receive, o) false)
  | dispatch (o value messageType body) : Runs s t (.draining o value) (.draining o value) { s with
      pushed := s.pushed ++ [(s.associatedActor o, .cts (contextOf o) messageType body)] }
  | drained (o) : Runs s t (.draining o true) .idle (s.unlockSharedIf t true)
  | drained_fails (o) :
      Runs s t (.draining o false) (.cleanup (contextOf o) false) (s.unlockSharedIf t true)
  -- SendMessageTo
  | message (context) {m} (hm : s.sessionsMutex.lockShared t = some m) :
      Runs s t (.message context) (.messageLocked context) { s with sessionsMutex := m }
  | messageLocked (context o) (hfound : s.sessions context = some o) :
      Runs s t (.messageLocked context) (.messagePushed o) s
  | messageLocked_none (context) (hfound : s.sessions context = none) :
      Runs s t (.messageLocked context) .idle (s.unlockSharedIf t true)
  | messagePushed (o) (hoff : s.isIoOnline (.initiateSend, o) = false) :
      Runs s t (.messagePushed o) (.messageInitiating o) (s.setOnline (.initiateSend, o) true)
  | messagePushed_online (o) (hon : s.isIoOnline (.initiateSend, o) = true) :
      Runs s t (.messagePushed o) .idle (s.unlockSharedIf t true)
  | messageInitiating (o) :
      Runs s t (.messageInitiating o) .idle ((s.unlockSharedIf t true).post (.initiateSend, o))
  -- ChangeAssociatedActor and TryChangeAssociatedActor
  | change (context current new) {m} (hm : s.sessionsMutex.lock t = some m) :
      Runs s t (.change context current new) (.changeLocked context current new)
        { s with sessionsMutex := m }
  | changeLocked (context current new o) (hfound : s.sessions context = some o)
      (hcurrent : current.all (· = s.associatedActor o) = true) :
      Runs s t (.changeLocked context current new) .idle { s with
        associatedActor := Function.update s.associatedActor o new
        sessionsMutex := s.sessionsMutex.unlock }
  | changeLocked_fails (context current new)
      (h : ∀ o, s.sessions context = some o → ¬ current.all (· = s.associatedActor o) = true) :
      Runs s t (.changeLocked context current new) .idle
        { s with sessionsMutex := s.sessionsMutex.unlock }
  -- SessionCleanupRoutine
  | cleanup (context held) {m} (hm : s.sessionsMutex.lockShared t = some m) :
      Runs s t (.cleanup context held) (.cleanupShared context held) { s with sessionsMutex := m }
  | cleanupShared (context held) :
      Runs s t (.cleanupShared context held) (.cleanupFind context held) (s.unlockSharedIf t true)
  | cleanupFind (context held o) (hfound : s.sessions context = some o) :
      Runs s t (.cleanupFind context held) (.cleanupClose context o held) s
  | cleanupFind_none (context held) (hfound : s.sessions context = none) :
      Runs s t (.cleanupFind context held) .idle (s.unlockSharedIf t held)
  | cleanupClose (context o held) :
      Runs s t (.cleanupClose context o held) (.cleanupTest context o held)
        { s with shouldClose := Function.update s.shouldClose o true }
  | cleanupTest (context o held) (hoffline : s.allOffline o = true) :
      Runs s t (.cleanupTest context o held) (.cleanupClosed context held) s
  | cleanupTest_online (context o held) (honline : ¬ s.allOffline o = true) :
      Runs s t (.cleanupTest context o held) .idle (s.unlockSharedIf t held)
  | cleanupClosed (context held) {m} (hm : s.sessionsMutex.lock t = some m) :
      Runs s t (.cleanupClosed context held) (.cleanupLocked context held)
        { s with sessionsMutex := m }
  | erase (context held o) (hfound : s.sessions context = some o) :
      Runs s t (.cleanupLocked context held)
        (.cleanupErased context (some (s.associatedActor o)) held) { s with
          sessions := Function.update s.sessions context none
          shouldClose := Function.update s.shouldClose o true
          sessionsMutex := s.sessionsMutex.unlock }
  | erase_none (context held) (hfound : s.sessions context = none) :
      Runs s t (.cleanupLocked context held) (.cleanupErased context none held)
        { s with sessionsMutex := s.sessionsMutex.unlock }
  | notify (context actor held) : Runs s t (.cleanupErased context (some actor) held) .idle
      { s.unlockSharedIf t held with
        pushed := s.pushed ++ [(actor, .sessionDisconnected context)] }
  | notify_none (context held) :
      Runs s t (.cleanupErased context none held) .idle (s.unlockSharedIf t held)

/-- The state after a step of a thread that locks `sessionsMutex_`. -/
theorem lock_eq_some {p : Pc} (h : s.lock t p = some s') :
    ∃ m, s.sessionsMutex.lock t = some m ∧ s' = { s with sessionsMutex := m }.goto t p := by
  obtain ⟨m, hm, rfl⟩ := Option.map_eq_some_iff.mp h
  exact ⟨m, hm, rfl⟩

theorem lockShared_eq_some {p : Pc} (h : s.lockShared t p = some s') :
    ∃ m, s.sessionsMutex.lockShared t = some m ∧ s' = { s with sessionsMutex := m }.goto t p := by
  obtain ⟨m, hm, rfl⟩ := Option.map_eq_some_iff.mp h
  exact ⟨m, hm, rfl⟩

/-- A step of a thread is one of those listed. -/
theorem runs_of_runStep {answers : Answers} (hstep : s.runStep t answers = some s') :
    ∃ p r, Runs s t (s.pc t) p r ∧ s' = r.goto t p := by
  unfold runStep at hstep
  cases hq : s.pc t with
  | idle =>
    rw [hq] at hstep
    cases hstep
  | acceptCreated o =>
    simp only [hq] at hstep
    obtain ⟨m, hm, rfl⟩ := lock_eq_some hstep
    exact ⟨_, _, .acceptCreated o hm, rfl⟩
  | acceptLocked o =>
    simp only [hq] at hstep
    split at hstep
    · cases hstep
    · rename_i hfree
      cases hstep
      exact ⟨_, _, .acceptLocked o hfree, rfl⟩
  | acceptEmplaced o =>
    simp only [hq] at hstep
    split_ifs at hstep with hreturn
    all_goals cases hstep
    · exact ⟨_, _, .acceptEmplaced_fails o (Bool.or_eq_true_iff.mp hreturn), rfl⟩
    · obtain ⟨hoff, hopen⟩ := Bool.or_eq_false_iff.mp (Bool.eq_false_iff.mpr hreturn)
      exact ⟨_, _, .acceptEmplaced o hoff hopen, rfl⟩
  | acceptReceiving o =>
    simp only [hq] at hstep
    split_ifs at hstep
    all_goals cases hstep
    · exact ⟨_, _, .acceptReceiving o, rfl⟩
    · exact ⟨_, _, .acceptReceiving_fails o, rfl⟩
  | failed type o =>
    simp only [hq] at hstep
    cases hstep
    exact ⟨_, _, .failed type o, rfl⟩
  | postSend o =>
    simp only [hq] at hstep
    obtain ⟨m, hm, rfl⟩ := lockShared_eq_some hstep
    exact ⟨_, _, .postSend o hm, rfl⟩
  | postSendLocked o =>
    simp only [hq] at hstep
    cases hstep
    exact ⟨_, _, .postSendLocked o, rfl⟩
  | initiateSend o =>
    simp only [hq] at hstep
    obtain ⟨m, hm, rfl⟩ := lockShared_eq_some hstep
    exact ⟨_, _, .initiateSend o hm, rfl⟩
  | initiateSendLocked o =>
    simp only [hq] at hstep
    cases hstep
    exact ⟨_, _, .initiateSendLocked o, rfl⟩
  | trySend handler o =>
    simp only [hq, sendReturns_true, sendReturns_false] at hstep
    split_ifs at hstep with honline hclose hnothing
    all_goals cases hstep
    · exact ⟨_, _, .trySend_nothing handler o (Or.inl honline), rfl⟩
    · exact ⟨_, _, .trySend_fails handler o hclose, rfl⟩
    · exact ⟨_, _, .trySend_nothing handler o (Or.inr (Bool.eq_false_iff.mpr hclose)), rfl⟩
    · have hopen := Bool.eq_false_iff.mpr hclose
      exact ⟨_, _, .trySend handler o (Bool.eq_false_iff.mpr honline) hopen, rfl⟩
  | sendLoop handler o =>
    simp only [hq, sendReturns_false] at hstep
    split_ifs at hstep
    all_goals cases hstep
    · exact ⟨_, _, .sendLoop handler o, rfl⟩
    · exact ⟨_, _, .sendLoop_fails handler o, rfl⟩
  | wsaSend handler o =>
    simp only [hq, sendReturns_true, sendReturns_false] at hstep
    split_ifs at hstep
    all_goals cases hstep
    · exact ⟨_, _, .wsaSend handler o, rfl⟩
    · exact ⟨_, _, .wsaSend_fails handler o, rfl⟩
  | postReceive o n =>
    simp only [hq] at hstep
    obtain ⟨m, hm, rfl⟩ := lockShared_eq_some hstep
    exact ⟨_, _, .postReceive o n hm, rfl⟩
  | postReceiveLocked o n =>
    simp only [hq] at hstep
    cases hstep
    exact ⟨_, _, .postReceiveLocked o n, rfl⟩
  | received o n =>
    simp only [hq] at hstep
    split_ifs at hstep
    all_goals cases hstep
    · exact ⟨_, _, .received o n, rfl⟩
    · exact ⟨_, _, .received_fails o n, rfl⟩
  | rearm o =>
    simp only [hq] at hstep
    split_ifs at hstep with hreturn
    all_goals cases hstep
    · exact ⟨_, _, .rearm_fails o (Bool.or_eq_true_iff.mp hreturn), rfl⟩
    · obtain ⟨hoff, hopen⟩ := Bool.or_eq_false_iff.mp (Bool.eq_false_iff.mpr hreturn)
      exact ⟨_, _, .rearm o hoff hopen, rfl⟩
  | rearming o =>
    simp only [hq] at hstep
    split_ifs at hstep
    all_goals cases hstep
    · exact ⟨_, _, .rearming o, rfl⟩
    · exact ⟨_, _, .rearming_fails o, rfl⟩
  | draining o value =>
    simp only [hq] at hstep
    split at hstep
    · rename_i messageType body _
      split_ifs at hstep
      cases hstep
      refine ⟨_, _, .dispatch o value messageType body, ?_⟩
      rw [goto, ← hq, Function.update_eq_self]
    · cases hstep
      cases value with
      | true => exact ⟨_, _, .drained o, rfl⟩
      | false => exact ⟨_, _, .drained_fails o, rfl⟩
  | message context =>
    simp only [hq] at hstep
    obtain ⟨m, hm, rfl⟩ := lockShared_eq_some hstep
    exact ⟨_, _, .message context hm, rfl⟩
  | messageLocked context =>
    simp only [hq] at hstep
    split at hstep
    · rename_i hfound
      cases hstep
      exact ⟨_, _, .messageLocked_none context hfound, rfl⟩
    · rename_i o hfound
      cases hstep
      exact ⟨_, _, .messageLocked context o hfound, rfl⟩
  | messagePushed o =>
    simp only [hq] at hstep
    split_ifs at hstep with honline
    all_goals cases hstep
    · exact ⟨_, _, .messagePushed_online o honline, rfl⟩
    · exact ⟨_, _, .messagePushed o (Bool.eq_false_iff.mpr honline), rfl⟩
  | messageInitiating o =>
    simp only [hq] at hstep
    cases hstep
    exact ⟨_, _, .messageInitiating o, rfl⟩
  | change context current new =>
    simp only [hq] at hstep
    obtain ⟨m, hm, rfl⟩ := lock_eq_some hstep
    exact ⟨_, _, .change context current new hm, rfl⟩
  | changeLocked context current new =>
    simp only [hq] at hstep
    split at hstep
    · rename_i hfound
      cases hstep
      exact ⟨_, _, .changeLocked_fails context current new (by simp [hfound]), rfl⟩
    · rename_i o hfound
      split_ifs at hstep with hcurrent
      all_goals cases hstep
      · exact ⟨_, _, .changeLocked context current new o hfound hcurrent, rfl⟩
      · refine ⟨_, _, .changeLocked_fails context current new fun o' ho' => ?_, rfl⟩
        rwa [← Option.some.inj (hfound.symm.trans ho')]
  | cleanup context held =>
    simp only [hq] at hstep
    obtain ⟨m, hm, rfl⟩ := lockShared_eq_some hstep
    exact ⟨_, _, .cleanup context held hm, rfl⟩
  | cleanupShared context held =>
    simp only [hq] at hstep
    cases hstep
    exact ⟨_, _, .cleanupShared context held, rfl⟩
  | cleanupFind context held =>
    simp only [hq, cleanupReturns_eq] at hstep
    split at hstep
    · rename_i hfound
      cases hstep
      exact ⟨_, _, .cleanupFind_none context held hfound, rfl⟩
    · rename_i o hfound
      cases hstep
      exact ⟨_, _, .cleanupFind context held o hfound, rfl⟩
  | cleanupClose context o held =>
    simp only [hq] at hstep
    cases hstep
    exact ⟨_, _, .cleanupClose context o held, rfl⟩
  | cleanupTest context o held =>
    simp only [hq, cleanupReturns_eq] at hstep
    split_ifs at hstep with hoffline
    all_goals cases hstep
    · exact ⟨_, _, .cleanupTest context o held hoffline, rfl⟩
    · exact ⟨_, _, .cleanupTest_online context o held hoffline, rfl⟩
  | cleanupClosed context held =>
    simp only [hq] at hstep
    obtain ⟨m, hm, rfl⟩ := lock_eq_some hstep
    exact ⟨_, _, .cleanupClosed context held hm, rfl⟩
  | cleanupLocked context held =>
    simp only [hq] at hstep
    split at hstep
    · rename_i hfound
      cases hstep
      exact ⟨_, _, .erase_none context held hfound, rfl⟩
    · rename_i o hfound
      cases hstep
      exact ⟨_, _, .erase context held o hfound, rfl⟩
  | cleanupErased context actor held =>
    cases actor with
    | none =>
      simp only [hq, cleanupReturns_eq] at hstep
      cases hstep
      exact ⟨_, _, .notify_none context held, rfl⟩
    | some actor =>
      simp only [hq, cleanupReturns_eq] at hstep
      split_ifs at hstep
      cases hstep
      exact ⟨_, _, .notify context actor held, rfl⟩

/-- A completion of an operation is handled. -/
def accepted (s : NetworkServer) (key : IoType × Nat) : NetworkServer :=
  { s with pending := Function.update s.pending key (s.pending key - 1) }

/-- A thread that is idle and begins with a handler at `p` may find the state `s` and leave the state
`r`, where the thread has still to go on. -/
inductive Begins (s : NetworkServer) : (handler : Handler) → (p : Pc) → (r : NetworkServer) → Prop
  | accept : Begins s .accept (.acceptCreated s.created) { s with
      created := s.created + 1
      associatedActor := Function.update s.associatedActor s.created s.initialAssociatedActor }
  | postSend (o n) (h : s.pending (.send, o) ≠ 0) :
      Begins s (.completion .send o true n) (.postSend o) (s.accepted (.send, o))
  | postReceive (o n) (h : s.pending (.receive, o) ≠ 0) :
      Begins s (.completion .receive o true n) (.postReceive o n) (s.accepted (.receive, o))
  | initiateSend (o n) (h : s.pending (.initiateSend, o) ≠ 0) :
      Begins s (.completion .initiateSend o true n) (.initiateSend o) (s.accepted (.initiateSend, o))
  | failed (type o n) (h : s.pending (type, o) ≠ 0) :
      Begins s (.completion type o false n) (.failed type o) (s.accepted (type, o))
  | sendMessageTo (context) : Begins s (.sendMessageTo context) (.message context) s
  | disconnectSession (context) : Begins s (.disconnectSession context) (.cleanup context false) s
  | changeAssociatedActor (context new) :
      Begins s (.changeAssociatedActor context new) (.change context none new) s
  | tryChangeAssociatedActor (context current new) :
      Begins s (.tryChangeAssociatedActor context current new) (.change context (some current) new) s

theorem begins_of_startStep {handler : Handler} (hstep : s.startStep t handler = some s') :
    s.pc t = .idle ∧ ∃ p r, Begins s handler p r ∧ s' = r.goto t p := by
  unfold startStep at hstep
  split at hstep
  · rename_i hq
    refine ⟨hq, ?_⟩
    cases handler with
    | accept =>
      cases hstep
      exact ⟨_, _, .accept, rfl⟩
    | completion type o success n =>
      dsimp only at hstep
      split_ifs at hstep with hpending
      split at hstep
      · cases hstep
        exact ⟨_, _, .postSend o n hpending, rfl⟩
      · cases hstep
        exact ⟨_, _, .postReceive o n hpending, rfl⟩
      · cases hstep
        exact ⟨_, _, .initiateSend o n hpending, rfl⟩
      · cases hstep
      · cases hstep
        exact ⟨_, _, .failed _ o n hpending, rfl⟩
    | sendMessageTo context =>
      cases hstep
      exact ⟨_, _, .sendMessageTo context, rfl⟩
    | disconnectSession context =>
      cases hstep
      exact ⟨_, _, .disconnectSession context, rfl⟩
    | changeAssociatedActor context new =>
      cases hstep
      exact ⟨_, _, .changeAssociatedActor context new, rfl⟩
    | tryChangeAssociatedActor context current new =>
      cases hstep
      exact ⟨_, _, .tryChangeAssociatedActor context current new, rfl⟩
  · cases hstep

end NetworkServer

end RatkiniaServer
