import RatkiniaServer.SendHandlers

/-!
# The steps of the threads on the sending side

`Runs` and `Begins` say what a step of a thread can do: from where to where it goes, what the step finds
in the state and what it changes. `Fills` says it of the loop over `WriteBio`.
-/

namespace RatkiniaServer.SendHandlers

open Ring Session

variable {cap : Nat} {s s' : State} {t : Nat}

/-- What the loop over `WriteBio` leaves alone. -/
def State.beside (s : State) : List Bytes × Nat × Bool × Bool × Bool × SendIo × Nat :=
  (s.sendAppQueue, s.head, s.isSendOnline, s.isInitiateOnline, s.shouldClose, s.sendIo,
    s.initiateQueued)

theorem State.beside_eq_iff : s'.beside = s.beside ↔
    s'.sendAppQueue = s.sendAppQueue ∧ s'.head = s.head ∧ s'.isSendOnline = s.isSendOnline ∧
    s'.isInitiateOnline = s.isInitiateOnline ∧ s'.shouldClose = s.shouldClose ∧
    s'.sendIo = s.sendIo ∧ s'.initiateQueued = s.initiateQueued := by
  simp only [beside, Prod.mk.injEq]

/-- One iteration of the loop over `WriteBio`, or its end: all is read, the call fails, or bytes are
read. -/
inductive Fills (cap : Nat) (s : State) (t : Nat) (caller : Caller) (wantRead : Bool)
    (loadedHead loadedTail : Nat) (written : Bytes) : BioAnswer → State → Prop
  | finish {s' : State} (r : SendBuffersProcessResult)
      (hpc : s'.pc = Function.update s.pc t (caller.goesOn r)) (hbeside : s'.beside = s.beside)
      (hmutex : s'.processMutex = none)
      (htail : s'.tail = if 0 < written.length then (loadedTail + written.length) % cap else s.tail) :
      Fills cap s t caller wantRead loadedHead loadedTail written .nothingPending s'
  | fail {s' : State} {bio : BioAnswer}
      (hpc : s'.pc = Function.update s.pc t (caller.goesOn .failed)) (hbeside : s'.beside = s.beside)
      (hmutex : s'.processMutex = none) (htail : s'.tail = s.tail) :
      Fills cap s t caller wantRead loadedHead loadedTail written bio s'
  | read {s' : State} (bytes : Bytes)
      (hpc : s'.pc = Function.update s.pc t
        (.filling caller wantRead loadedHead loadedTail (written ++ bytes)))
      (hbeside : s'.beside = s.beside)
      (hring : (s'.processMutex, s'.tail) = (s.processMutex, s.tail))
      (hroom : bytes.length ≤ cap - (loadedTail + written.length) % cap) :
      Fills cap s t caller wantRead loadedHead loadedTail written (.bytes bytes) s'

theorem fills_of_fillStep {bio : BioAnswer} {caller : Caller} {wantRead : Bool}
    {loadedHead loadedTail : Nat} {written : Bytes}
    (hstep : fillStep cap s t bio caller wantRead loadedHead loadedTail written = some s') :
    Fills cap s t caller wantRead loadedHead loadedTail written bio s' := by
  unfold fillStep at hstep
  cases bio with
  | nothingPending =>
    by_cases hw : written.length > 0
    · simp only [if_pos hw] at hstep
      cases hstep
      exact .finish _ rfl rfl rfl (by rw [if_pos hw])
    · simp only [if_neg hw] at hstep
      cases hstep
      exact .finish _ rfl rfl rfl (by rw [if_neg hw]; rfl)
  | readError =>
    cases hstep
    exact .fail rfl rfl rfl rfl
  | bytes bytes =>
    dsimp only at hstep
    split_ifs at hstep with _ _ hfits _ hfits
    all_goals cases hstep
    · exact .fail rfl rfl rfl rfl
    · exact .read bytes rfl rfl rfl (le_trans hfits.2 (min_le_right ..))
    · exact .fail rfl rfl rfl rfl
    · exact .read bytes rfl rfl rfl (le_trans hfits.2 (min_le_right ..))

/-- A step of the thread `t` from `q` to `p` may find the state `s` and leave the state `r`, where the
thread has still to go on. -/
inductive Runs (cap : Nat) (s : State) (t : Nat) : (q p : Pc) → (r : State) → Prop
  -- TryPostSend, PostIoFailed and PostInitiateSend
  | postSend (n) : Runs cap s t (.postSend n) (.flagCleared n) { s with isSendOnline := false }
  | flagCleared (n) : Runs cap s t (.flagCleared n) (.headLoaded n s.head) s
  | headLoaded (n loadedHead) : Runs cap s t (.headLoaded n loadedHead) .trySendAsync { s with
      head := (loadedHead + n) % cap
      acknowledged := s.acknowledged + n }
  | postIoFailed : Runs cap s t .postIoFailed .close { s with isSendOnline := false }
  | postInitiateSend :
      Runs cap s t .postInitiateSend .trySendAsync { s with isInitiateOnline := false }
  -- TrySendAsync
  | trySendAsync (hoff : s.isSendOnline = false) : Runs cap s t .trySendAsync .sendOnline { s with
      ioMutex := some t
      isSendOnline := true }
  | trySendAsync_online (hon : s.isSendOnline = true) : Runs cap s t .trySendAsync .idle s
  | trySendAsync_closed : Runs cap s t .trySendAsync .close s
  | sendOnline : Runs cap s t .sendOnline (.sendHeadLoaded s.head) s
  | sendHeadLoaded (loadedHead) :
      Runs cap s t (.sendHeadLoaded loadedHead) (.sendTailLoaded loadedHead s.tail) s
  | sendTailLoaded (loadedHead loadedTail) : Runs cap s t (.sendTailLoaded loadedHead loadedTail)
      (.processSendBuffers .trySendAsync) { s with ioMutex := none }
  | sendTailLoaded_nothing (loadedHead) (hqueue : s.sendAppQueue = []) :
      Runs cap s t (.sendTailLoaded loadedHead loadedHead) .idle { s with
        ioMutex := none
        isSendOnline := false }
  | receiveBuffers_success :
      Runs cap s t .sendReceiveBuffers (.processSendBuffers .trySendAsync) s
  | receiveBuffers_wantProcessSendBuffers : Runs cap s t .sendReceiveBuffers .sendReady s
  | receiveBuffers_failed : Runs cap s t .sendReceiveBuffers .sendFailed s
  | sendReady : Runs cap s t .sendReady (.sendReadyHead s.head) s
  | sendReadyHead (loadedHead) :
      Runs cap s t (.sendReadyHead loadedHead) (.sendReadyTail loadedHead s.tail) s
  | sendReadyTail (loadedHead loadedTail len)
      (hlen : len =
        (if loadedTail ≥ loadedHead then loadedTail - loadedHead else cap - loadedHead) % 2 ^ 32) :
      Runs cap s t (.sendReadyTail loadedHead loadedTail) .idle
        { s with sendIo := .inFlight ⟨loadedHead, len, slice s.buffer loadedHead len⟩ }
  | sendReadyTail_fails (loadedHead loadedTail) :
      Runs cap s t (.sendReadyTail loadedHead loadedTail) .sendFailed s
  | sendFailed : Runs cap s t .sendFailed .close { s with isSendOnline := false }
  -- TryProcessSendBuffers
  | processSendBuffers (caller) (hmutex : s.processMutex = none) :
      Runs cap s t (.processSendBuffers caller) (.writing caller) { s with processMutex := some t }
  | writing_empty (caller) (hqueue : s.sendAppQueue = []) :
      Runs cap s t (.writing caller) (.fillHead caller false) s
  | writing (caller message rest) (hqueue : s.sendAppQueue = message :: rest) :
      Runs cap s t (.writing caller) (.sslWriting caller message) { s with sendAppQueue := rest }
  | sslWriting (caller message) : Runs cap s t (.sslWriting caller message) (.writing caller) s
  | sslWriting_wantRead (caller message) :
      Runs cap s t (.sslWriting caller message) (.fillHead caller true) s
  | sslWriting_error (caller message) :
      Runs cap s t (.sslWriting caller message) (caller.goesOn .failed) { s with
        processMutex := none }
  | fillHead (caller wantRead) :
      Runs cap s t (.fillHead caller wantRead) (.fillTail caller wantRead s.head) s
  | fillTail (caller wantRead loadedHead) : Runs cap s t (.fillTail caller wantRead loadedHead)
      (.filling caller wantRead loadedHead s.tail []) s
  | filling (caller wantRead loadedHead loadedTail written) {bio p r}
      (hfill : fillStep cap s t bio caller wantRead loadedHead loadedTail written =
        some (r.goto t p)) :
      Runs cap s t (.filling caller wantRead loadedHead loadedTail written) p r
  -- InitiateSendAsync and Close
  | initiateSend (hoff : s.isInitiateOnline = false) :
      Runs cap s t .initiateSend .initiatePosting { s with isInitiateOnline := true }
  | initiateSend_online (hon : s.isInitiateOnline = true) : Runs cap s t .initiateSend .idle s
  | initiatePosting :
      Runs cap s t .initiatePosting .idle { s with initiateQueued := s.initiateQueued + 1 }
  | close : Runs cap s t .close .idle { s with shouldClose := true }

/-- A step of a thread is one of those listed. -/
theorem runs_of_runStep {answers : Answers} (hstep : runStep cap s t answers = some s') :
    ∃ p r, Runs cap s t (s.pc t) p r ∧ s' = r.goto t p := by
  unfold runStep at hstep
  cases hq : s.pc t with
  | idle =>
    rw [hq] at hstep
    cases hstep
  | postSend n =>
    simp only [hq] at hstep
    split_ifs at hstep
    cases hstep
    exact ⟨_, _, .postSend n, rfl⟩
  | flagCleared n =>
    simp only [hq] at hstep
    cases hstep
    exact ⟨_, _, .flagCleared n, rfl⟩
  | headLoaded n loadedHead =>
    simp only [hq] at hstep
    cases hstep
    exact ⟨_, _, .headLoaded n loadedHead, rfl⟩
  | postIoFailed =>
    simp only [hq] at hstep
    split_ifs at hstep
    cases hstep
    exact ⟨_, _, .postIoFailed, rfl⟩
  | postInitiateSend =>
    simp only [hq] at hstep
    cases hstep
    exact ⟨_, _, .postInitiateSend, rfl⟩
  | trySendAsync =>
    simp only [hq] at hstep
    split_ifs at hstep with hmutex honline hclose
    all_goals cases hstep
    · exact ⟨_, _, .trySendAsync_online honline, rfl⟩
    · exact ⟨_, _, .trySendAsync_closed, rfl⟩
    · exact ⟨_, _, .trySendAsync (Bool.eq_false_iff.mpr honline), rfl⟩
  | sendOnline =>
    simp only [hq] at hstep
    cases hstep
    exact ⟨_, _, .sendOnline, rfl⟩
  | sendHeadLoaded loadedHead =>
    simp only [hq] at hstep
    cases hstep
    exact ⟨_, _, .sendHeadLoaded loadedHead, rfl⟩
  | sendTailLoaded loadedHead loadedTail =>
    simp only [hq] at hstep
    split_ifs at hstep with hnothing
    all_goals cases hstep
    · obtain ⟨rfl, hqueue⟩ := hnothing
      exact ⟨_, _, .sendTailLoaded_nothing loadedHead (List.isEmpty_iff.mp hqueue), rfl⟩
    · exact ⟨_, _, .sendTailLoaded loadedHead loadedTail, rfl⟩
  | sendReceiveBuffers =>
    simp only [hq] at hstep
    cases hr : answers.receiveBuffers with
    | success =>
      rw [hr] at hstep
      cases hstep
      exact ⟨_, _, .receiveBuffers_success, rfl⟩
    | wantProcessSendBuffers =>
      rw [hr] at hstep
      cases hstep
      exact ⟨_, _, .receiveBuffers_wantProcessSendBuffers, rfl⟩
    | failed =>
      rw [hr] at hstep
      cases hstep
      exact ⟨_, _, .receiveBuffers_failed, rfl⟩
  | sendReady =>
    simp only [hq] at hstep
    cases hstep
    exact ⟨_, _, .sendReady, rfl⟩
  | sendReadyHead loadedHead =>
    simp only [hq] at hstep
    cases hstep
    exact ⟨_, _, .sendReadyHead loadedHead, rfl⟩
  | sendReadyTail loadedHead loadedTail =>
    simp only [hq] at hstep
    by_cases hsend : answers.wsaSend = true
    · rw [if_pos hsend] at hstep
      cases hstep
      exact ⟨_, _, .sendReadyTail loadedHead loadedTail _ rfl, rfl⟩
    · rw [if_neg hsend] at hstep
      cases hstep
      exact ⟨_, _, .sendReadyTail_fails loadedHead loadedTail, rfl⟩
  | sendFailed =>
    simp only [hq] at hstep
    split_ifs at hstep
    cases hstep
    exact ⟨_, _, .sendFailed, rfl⟩
  | processSendBuffers caller =>
    simp only [hq] at hstep
    split_ifs at hstep with hmutex
    cases hstep
    exact ⟨_, _, .processSendBuffers caller (Option.not_isSome_iff_eq_none.mp hmutex), rfl⟩
  | writing caller =>
    simp only [hq] at hstep
    cases hqueue : s.sendAppQueue with
    | nil =>
      rw [hqueue] at hstep
      cases hstep
      exact ⟨_, _, .writing_empty caller hqueue, rfl⟩
    | cons message rest =>
      rw [hqueue] at hstep
      cases hstep
      exact ⟨_, _, .writing caller message rest hqueue, rfl⟩
  | sslWriting caller message =>
    simp only [hq] at hstep
    cases hwrite : answers.sslWrite with
    | success =>
      rw [hwrite] at hstep
      cases hstep
      exact ⟨_, _, .sslWriting caller message, rfl⟩
    | wantRead =>
      rw [hwrite] at hstep
      cases hstep
      exact ⟨_, _, .sslWriting_wantRead caller message, rfl⟩
    | error =>
      rw [hwrite] at hstep
      cases hstep
      exact ⟨_, _, .sslWriting_error caller message, rfl⟩
  | fillHead caller wantRead =>
    simp only [hq] at hstep
    cases hstep
    exact ⟨_, _, .fillHead caller wantRead, rfl⟩
  | fillTail caller wantRead loadedHead =>
    simp only [hq] at hstep
    cases hstep
    exact ⟨_, _, .fillTail caller wantRead loadedHead, rfl⟩
  | filling caller wantRead loadedHead loadedTail written =>
    simp only [hq] at hstep
    have hgoto : s' = s'.goto t (s'.pc t) := by rw [State.goto, Function.update_eq_self]
    exact ⟨_, s', .filling caller wantRead loadedHead loadedTail written (hgoto ▸ hstep), hgoto⟩
  | initiateSend =>
    simp only [hq] at hstep
    split_ifs at hstep with honline
    all_goals cases hstep
    · exact ⟨_, _, .initiateSend_online honline, rfl⟩
    · exact ⟨_, _, .initiateSend (Bool.eq_false_iff.mpr honline), rfl⟩
  | initiatePosting =>
    simp only [hq] at hstep
    cases hstep
    exact ⟨_, _, .initiatePosting, rfl⟩
  | close =>
    simp only [hq] at hstep
    cases hstep
    exact ⟨_, _, .close, rfl⟩

theorem Runs.exists_pc {p q : Pc} {r : State} (h : Runs cap s t q p r) :
    ∃ p', (r.goto t p).pc = Function.update s.pc t p' := by
  cases h with
  | filling caller wantRead loadedHead loadedTail written hfill =>
    cases fills_of_fillStep hfill with
    | finish _ hpc | fail hpc | read _ hpc => exact ⟨_, hpc⟩
  | _ => exact ⟨_, rfl⟩

/-- A thread that is idle and begins with a handler at `p` may find the state `s` and leave the state
`r`, where the thread has still to go on. -/
inductive Begins (s : State) : (p : Pc) → (r : State) → Prop
  | pushMessage (messageType body) :
      Begins s .initiateSend { s with sendAppQueue := s.sendAppQueue ++ [frame messageType body] }
  | sendCompletion (n) (hio : s.sendIo = .completed n) :
      Begins s (.postSend n) { s with sendIo := .none }
  | sendCompletion_failed (hio : s.sendIo = .failed) :
      Begins s .postIoFailed { s with sendIo := .none }
  | initiateSendCompletion (hqueued : s.initiateQueued ≠ 0) :
      Begins s .postInitiateSend { s with initiateQueued := s.initiateQueued - 1 }
  | tryPostReceive : Begins s (.processSendBuffers .tryPostReceive) s
  | disconnectSession : Begins s .close s

theorem Begins.pc_goto {p : Pc} {r : State} (h : Begins s p r) :
    (r.goto t p).pc = Function.update s.pc t p := by
  cases h <;> rfl

theorem begins_of_startStep {handler : Handler} (hstep : startStep s t handler = some s') :
    s.pc t = .idle ∧ ∃ p r, Begins s p r ∧ s' = r.goto t p := by
  unfold startStep at hstep
  split at hstep
  · rename_i hq
    refine ⟨hq, ?_⟩
    cases handler with
    | pushMessage messageType body =>
      cases hstep
      exact ⟨_, _, .pushMessage messageType body, rfl⟩
    | sendCompletion =>
      dsimp only at hstep
      split at hstep
      · rename_i n hio
        cases hstep
        exact ⟨_, _, .sendCompletion n hio, rfl⟩
      · rename_i hio
        cases hstep
        exact ⟨_, _, .sendCompletion_failed hio, rfl⟩
      · cases hstep
    | initiateSendCompletion =>
      dsimp only at hstep
      split_ifs at hstep with hqueued
      cases hstep
      exact ⟨_, _, .initiateSendCompletion hqueued, rfl⟩
    | tryPostReceive =>
      cases hstep
      exact ⟨_, _, .tryPostReceive, rfl⟩
    | disconnectSession =>
      cases hstep
      exact ⟨_, _, .disconnectSession, rfl⟩
  · cases hstep

end RatkiniaServer.SendHandlers
