import RatkiniaServer.Outgoing
import RatkiniaServer.Proofs.SendHandlers

/-!
# Proofs: outgoing data has a wake-up

Both flags are tokens, so whoever finds one on can leave the duty to call `TrySendAsync` to the holder
of the token. What the code does not see to is that `TrySendAsync` finds what is out for the client: it
looks at the queue and at the ring, and data on its way from the one to the other is in neither.
-/

namespace RatkiniaServer.SendHandlers

open Ring Session Threads Transition

variable {cap : Nat} {s s' r : State} {t : Nat} {p q : Pc}

/-! ## The tokens -/

/-- The thread has the token of the InitiateSend operation. -/
def Pc.ownsInitiate : Pc → Bool
  | .initiatePosting | .postInitiateSend => true
  | _ => false

/-- A thread that fills the ring has loaded the tail. -/
def Pc.TailIs (tail : Nat) : Pc → Prop
  | .filling _ _ _ loadedTail _ => loadedTail = tail
  | _ => True

/-- The flags stand for tokens, and only the thread that fills the ring moves the tail. -/
structure Regions (cap : Nat) (s : State) : Prop where
  send : Token Pc.ownsSend s.pc (s.sendIo ≠ .none) s.isSendOnline
  initiate : Token Pc.ownsInitiate s.pc (s.initiateQueued ≠ 0) s.isInitiateOnline
  single : s.initiateQueued ≤ 1
  filler : Tracks Pc.fills s.pc s.processMutex
  tails : ∀ u, (s.pc u).TailIs s.tail
  head : s.head < cap
  tail : s.tail < cap

/-- What a step from `q` to `p` does to the send operation. -/
inductive SendStep (q p : Pc) (online : Bool) (io : SendIo) : Bool → SendIo → Prop
  | keep (h : p.ownsSend = q.ownsSend) : SendStep q p online io online io
  | take (hoff : online = false) (h : p.ownsSend = true) : SendStep q p online io true io
  | release (h : (q.ownsSend, p.ownsSend) = (true, false)) : SendStep q p online io false io
  | give (call : SendCall) (h : (q.ownsSend, p.ownsSend) = (true, false)) :
      SendStep q p online io online (.inFlight call)

/-- What a step from `q` to `p` does to the InitiateSend operation. -/
inductive InitiateStep (q p : Pc) (online : Bool) (queued : Nat) : Bool → Nat → Prop
  | keep (h : p.ownsInitiate = q.ownsInitiate) : InitiateStep q p online queued online queued
  | take (hoff : online = false) (h : p.ownsInitiate = true) : InitiateStep q p online queued true queued
  | release (h : (q.ownsInitiate, p.ownsInitiate) = (true, false)) :
      InitiateStep q p online queued false queued
  | give (h : (q.ownsInitiate, p.ownsInitiate) = (true, false)) :
      InitiateStep q p online queued online (queued + 1)

/-- What a step of the thread `t` from `q` to `p` does to the mutex and to the tail. -/
inductive FillStep (t : Nat) (q p : Pc) (m : Option Nat) (tail : Nat) : Option Nat → Nat → Prop
  | keep (h : p.fills = q.fills) : FillStep t q p m tail m tail
  | enter (hm : m = none) (h : p.fills = true) : FillStep t q p m tail (some t) tail
  | leave (tail' : Nat) (h : (q.fills, p.fills) = (true, false)) : FillStep t q p m tail none tail'

/-- A step of the thread `t` to `p`. -/
structure Moves (cap : Nat) (s : State) (t : Nat) (p : Pc) (s' : State) : Prop where
  pc : s'.pc = Function.update s.pc t p
  send : SendStep (s.pc t) p s.isSendOnline s.sendIo s'.isSendOnline s'.sendIo
  initiate : InitiateStep (s.pc t) p s.isInitiateOnline s.initiateQueued s'.isInitiateOnline
    s'.initiateQueued
  fill : FillStep t (s.pc t) p s.processMutex s.tail s'.processMutex s'.tail
  tailIs : p.TailIs s'.tail
  head : s'.head < cap
  tail : s'.tail < cap

theorem tailIs_of_fills {tail : Nat} (h : p.fills = false) : p.TailIs tail := by
  cases p <;> trivial

theorem SendStep.token {online online' : Bool} {io io' : SendIo} {pc : Nat → Pc}
    (hstep : SendStep (pc t) p online io online' io') (h : Token Pc.ownsSend pc (io ≠ .none) online) :
    Token Pc.ownsSend (Function.update pc t p) (io' ≠ .none) online' := by
  cases hstep with
  | keep hp => exact h.move hp
  | take hoff hp =>
    subst hoff
    exact h.take hp
  | release hp => exact h.release (Prod.mk.inj hp).1 (Prod.mk.inj hp).2
  | give call hp => exact h.give (Prod.mk.inj hp).1 (Prod.mk.inj hp).2 nofun

theorem InitiateStep.token {online online' : Bool} {queued queued' : Nat} {pc : Nat → Pc}
    (hstep : InitiateStep (pc t) p online queued online' queued')
    (h : Token Pc.ownsInitiate pc (queued ≠ 0) online) (hsingle : queued ≤ 1) :
    Token Pc.ownsInitiate (Function.update pc t p) (queued' ≠ 0) online' ∧ queued' ≤ 1 := by
  cases hstep with
  | keep hp => exact ⟨h.move hp, hsingle⟩
  | take hoff hp =>
    subst hoff
    exact ⟨h.take hp, hsingle⟩
  | release hp => exact ⟨h.release (Prod.mk.inj hp).1 (Prod.mk.inj hp).2, hsingle⟩
  | give hp =>
    have hnone := (h.of_mem (Prod.mk.inj hp).1).2
    exact ⟨h.give (Prod.mk.inj hp).1 (Prod.mk.inj hp).2 (Nat.succ_ne_zero _), by omega⟩

theorem FillStep.tracks {m m' : Option Nat} {tail tail' : Nat} {pc : Nat → Pc}
    (hstep : FillStep t (pc t) p m tail m' tail') (h : Tracks Pc.fills pc m) :
    Tracks Pc.fills (Function.update pc t p) m' := by
  cases hstep with
  | keep hp => exact h.move hp
  | enter hm hp =>
    subst hm
    exact h.enter hp
  | leave tail' hp => exact h.leave (Prod.mk.inj hp).1 (Prod.mk.inj hp).2

theorem Moves.regions (hmoves : Moves cap s t p s') (h : Regions cap s) : Regions cap s' := by
  have hinitiate := hmoves.initiate.token h.initiate h.single
  refine ⟨?_, ?_, hinitiate.2, ?_, fun u => ?_, hmoves.head, hmoves.tail⟩
  · rw [hmoves.pc]
    exact hmoves.send.token h.send
  · rw [hmoves.pc]
    exact hinitiate.1
  · rw [hmoves.pc]
    exact hmoves.fill.tracks h.filler
  · rw [hmoves.pc]
    refine forall_update (A := fun _ (p : Pc) => p.TailIs s'.tail) (fun u hne => ?_) hmoves.tailIs u
    have hfill := hmoves.fill
    generalize s'.processMutex = m', s'.tail = tail' at hfill
    cases hfill with
    | keep _ => exact h.tails u
    | enter _ _ => exact h.tails u
    | leave tail' hp =>
      -- the mutex is held by the thread, so no other one fills the ring
      refine tailIs_of_fills ?_
      cases hu : (s.pc u).fills with
      | false => rfl
      | true => exact absurd (h.filler.unique hu (Prod.mk.inj hp).1) hne

/-! ## What a step of a thread does -/

/-- A step that leaves the tokens and the ring where they are. -/
theorem Moves.of_keep (h : Regions cap s) (hpc : s'.pc = Function.update s.pc t p)
    (hsend : (s'.isSendOnline, s'.sendIo) = (s.isSendOnline, s.sendIo))
    (hinitiate : (s'.isInitiateOnline, s'.initiateQueued) = (s.isInitiateOnline, s.initiateQueued))
    (hring : (s'.processMutex, s'.head, s'.tail) = (s.processMutex, s.head, s.tail))
    (howns : (p.ownsSend, p.ownsInitiate, p.fills) =
      ((s.pc t).ownsSend, (s.pc t).ownsInitiate, (s.pc t).fills))
    (htail : p.TailIs s.tail) : Moves cap s t p s' := by
  obtain ⟨honline, hio⟩ := Prod.mk.inj hsend
  obtain ⟨hinitiateOnline, hqueued⟩ := Prod.mk.inj hinitiate
  obtain ⟨hmutex, hring⟩ := Prod.mk.inj hring
  obtain ⟨hhead, htail'⟩ := Prod.mk.inj hring
  obtain ⟨hownsSend, howns⟩ := Prod.mk.inj howns
  obtain ⟨hownsInitiate, hfills⟩ := Prod.mk.inj howns
  constructor
  · exact hpc
  · rw [honline, hio]
    exact .keep hownsSend
  · rw [hinitiateOnline, hqueued]
    exact .keep hownsInitiate
  · rw [hmutex, htail']
    exact .keep hfills
  · rw [htail']
    exact htail
  · rw [hhead]
    exact h.head
  · rw [htail']
    exact h.tail

/-- The thread just goes on. -/
theorem Moves.goto (h : Regions cap s)
    (howns : (p.ownsSend, p.ownsInitiate, p.fills) =
      ((s.pc t).ownsSend, (s.pc t).ownsInitiate, (s.pc t).fills))
    (htail : p.TailIs s.tail) : Moves cap s t p (s.goto t p) :=
  .of_keep h rfl rfl rfl rfl howns htail

/-- `TryProcessSendBuffers` returns. -/
theorem Moves.of_return {caller : Caller} {r : SendBuffersProcessResult} (h : Regions cap s)
    (hq : s.pc t = q) (hpc : s'.pc = Function.update s.pc t (caller.goesOn r))
    (hsend : (s'.isSendOnline, s'.sendIo) = (s.isSendOnline, s.sendIo))
    (hinitiate : (s'.isInitiateOnline, s'.initiateQueued) = (s.isInitiateOnline, s.initiateQueued))
    (hmutex : (s'.processMutex, s'.head) = (none, s.head)) (htail : s'.tail < cap)
    (howns : (q.ownsSend, q.ownsInitiate, q.fills) = (caller.sends, false, true)) :
    Moves cap s t (caller.goesOn r) s' := by
  subst hq
  obtain ⟨honline, hio⟩ := Prod.mk.inj hsend
  obtain ⟨hinitiateOnline, hqueued⟩ := Prod.mk.inj hinitiate
  obtain ⟨hmutex, hhead⟩ := Prod.mk.inj hmutex
  obtain ⟨hownsSend, howns⟩ := Prod.mk.inj howns
  obtain ⟨hownsInitiate, hfills⟩ := Prod.mk.inj howns
  constructor
  · exact hpc
  · rw [honline, hio]
    exact .keep (by rw [hownsSend]; cases caller <;> cases r <;> rfl)
  · rw [hinitiateOnline, hqueued]
    exact .keep (by rw [hownsInitiate]; cases caller <;> cases r <;> rfl)
  · rw [hmutex]
    exact .leave _ (by rw [hfills]; cases caller <;> cases r <;> rfl)
  · cases caller <;> cases r <;> trivial
  · rw [hhead]
    exact h.head
  · exact htail

theorem Fills.moves {bio : BioAnswer} {caller : Caller} {wantRead : Bool}
    {loadedHead loadedTail : Nat} {written : Bytes}
    (hfills : Fills cap s t caller wantRead loadedHead loadedTail written bio s') (h : Regions cap s)
    (hq : s.pc t = .filling caller wantRead loadedHead loadedTail written) :
    ∃ p, Moves cap s t p s' := by
  have hcap : 0 < cap := Nat.zero_lt_of_lt h.tail
  have hframe {s' : State} (hbeside : s'.beside = s.beside) :
      (s'.isSendOnline, s'.sendIo) = (s.isSendOnline, s.sendIo) ∧
      (s'.isInitiateOnline, s'.initiateQueued) = (s.isInitiateOnline, s.initiateQueued) ∧
      s'.head = s.head := by
    obtain ⟨-, hhead, honline, hinitiateOnline, -, hio, hqueued⟩ := State.beside_eq_iff.mp hbeside
    exact ⟨by rw [honline, hio], by rw [hinitiateOnline, hqueued], hhead⟩
  cases hfills with
  | finish r hpc hbeside hmutex htail =>
    obtain ⟨hsend, hinitiate, hhead⟩ := hframe hbeside
    refine ⟨_, .of_return h hq hpc hsend hinitiate (by rw [hmutex, hhead]) ?_ rfl⟩
    rw [htail]
    split
    · exact Nat.mod_lt _ hcap
    · exact h.tail
  | fail hpc hbeside hmutex htail =>
    obtain ⟨hsend, hinitiate, hhead⟩ := hframe hbeside
    exact ⟨_, .of_return h hq hpc hsend hinitiate (by rw [hmutex, hhead]) (htail ▸ h.tail) rfl⟩
  | read bytes hpc hbeside hring =>
    obtain ⟨hsend, hinitiate, hhead⟩ := hframe hbeside
    obtain ⟨hmutex, htail⟩ := Prod.mk.inj hring
    have htailIs := h.tails t
    rw [hq] at htailIs
    exact ⟨_, .of_keep h hpc hsend hinitiate (by rw [hmutex, hhead, htail]) (by rw [hq]; rfl) htailIs⟩

/-- What a step of a thread does to the tokens. -/
theorem Runs.moves (hruns : Runs cap s t q p r) (h : Regions cap s) (hq : s.pc t = q) :
    ∃ p', Moves cap s t p' (r.goto t p) := by
  have hcap : 0 < cap := Nat.zero_lt_of_lt h.tail
  cases hruns with
  | postSend | postIoFailed | sendTailLoaded_nothing | sendFailed =>
    exact ⟨_, rfl, .release (by rw [hq]; rfl), .keep (by rw [hq]; rfl), .keep (by rw [hq]; rfl),
      trivial, h.head, h.tail⟩
  | headLoaded n loadedHead =>
    exact ⟨_, rfl, .keep (by rw [hq]; rfl), .keep (by rw [hq]; rfl), .keep (by rw [hq]; rfl),
      trivial, Nat.mod_lt _ hcap, h.tail⟩
  | postInitiateSend =>
    exact ⟨_, rfl, .keep (by rw [hq]; rfl), .release (by rw [hq]; rfl), .keep (by rw [hq]; rfl),
      trivial, h.head, h.tail⟩
  | trySendAsync hoff =>
    exact ⟨_, rfl, .take hoff rfl, .keep (by rw [hq]; rfl), .keep (by rw [hq]; rfl),
      trivial, h.head, h.tail⟩
  | sendReadyTail =>
    exact ⟨_, rfl, .give _ (by rw [hq]; rfl), .keep (by rw [hq]; rfl), .keep (by rw [hq]; rfl),
      trivial, h.head, h.tail⟩
  | processSendBuffers caller hmutex =>
    exact ⟨_, rfl, .keep (by rw [hq]; rfl), .keep (by rw [hq]; rfl), .enter hmutex rfl, trivial,
      h.head, h.tail⟩
  | sslWriting_error => exact ⟨_, .of_return h hq rfl rfl rfl rfl h.tail rfl⟩
  | fillTail => exact ⟨_, .of_keep h rfl rfl rfl rfl (by rw [hq]; rfl) rfl⟩
  | filling caller wantRead loadedHead loadedTail written hfill =>
    exact (fills_of_fillStep hfill).moves h hq
  | initiateSend hoff =>
    exact ⟨_, rfl, .keep (by rw [hq]; rfl), .take hoff rfl, .keep (by rw [hq]; rfl),
      trivial, h.head, h.tail⟩
  | initiatePosting =>
    exact ⟨_, rfl, .keep (by rw [hq]; rfl), .give (by rw [hq]; rfl), .keep (by rw [hq]; rfl),
      trivial, h.head, h.tail⟩
  | _ => exact ⟨_, .of_keep h rfl rfl rfl rfl (by rw [hq]; rfl) trivial⟩

theorem moves_of_runStep {answers : Answers} (h : Regions cap s)
    (hstep : runStep cap s t answers = some s') : ∃ p, Moves cap s t p s' := by
  obtain ⟨p, r, hruns, rfl⟩ := runs_of_runStep hstep
  exact hruns.moves h rfl

/-- The tokens are where they belong after a thread has begun with a handler. -/
theorem Begins.regions (hbegins : Begins s p r) (h : Regions cap s) (hq : s.pc t = .idle) :
    Regions cap (r.goto t p) := by
  have htail {p : Pc} (hp : p.fills = false) (u : Nat) : (Function.update s.pc t p u).TailIs s.tail :=
    forall_update (A := fun _ (p : Pc) => p.TailIs s.tail) (fun u _ => h.tails u) (tailIs_of_fills hp) u
  have haccept {p : Pc} (hio : s.sendIo ≠ .none) (hp : p.ownsSend = true) :
      Token Pc.ownsSend (Function.update s.pc t p) (SendIo.none ≠ .none) s.isSendOnline :=
    h.send.accept hio hp (by simp)
  cases hbegins with
  | sendCompletion n hio | sendCompletion_failed hio =>
    exact ⟨haccept (by rw [hio]; nofun) rfl, h.initiate.move (by rw [hq]; rfl), h.single,
      h.filler.move (by rw [hq]; rfl), htail rfl, h.head, h.tail⟩
  | initiateSendCompletion hqueued =>
    have hsingle := h.single
    have hzero : s.initiateQueued - 1 = 0 := by omega
    exact ⟨h.send.move (by rw [hq]; rfl), h.initiate.accept hqueued rfl (not_not_intro hzero),
      by simp [State.goto, hzero], h.filler.move (by rw [hq]; rfl), htail rfl, h.head, h.tail⟩
  | _ =>
    exact ⟨h.send.move (by rw [hq]; rfl), h.initiate.move (by rw [hq]; rfl), h.single,
      h.filler.move (by rw [hq]; rfl), htail rfl, h.head, h.tail⟩

/-- The send operation stays out when it completes or fails. -/
theorem Regions.of_io (h : Regions cap s) {io : SendIo} {completed : Bytes} (hio : s.sendIo ≠ .none)
    (hio' : io ≠ .none) : Regions cap { s with sendIo := io, completed := completed } where
  send := h.send.out_congr (by simp [hio, hio'])
  initiate := h.initiate
  single := h.single
  filler := h.filler
  tails := h.tails
  head := h.head
  tail := h.tail

theorem regions_step {a : Action} (h : Regions cap s) (hstep : step cap s a = some s') :
    Regions cap s' := by
  cases a with
  | start t handler =>
    obtain ⟨hq, p, r, hbegins, rfl⟩ := begins_of_startStep hstep
    exact hbegins.regions h hq
  | run t answers =>
    obtain ⟨p, hmoves⟩ := moves_of_runStep h hstep
    exact hmoves.regions h
  | complete n =>
    simp only [step] at hstep
    split at hstep
    case h_1 call hio =>
      split_ifs at hstep
      cases hstep
      exact h.of_io (by simp [hio]) (by simp)
    case h_2 => cases hstep
  | fail =>
    simp only [step] at hstep
    split at hstep
    case h_1 call hio =>
      cases hstep
      exact h.of_io (by simp [hio]) (by simp)
    case h_2 => cases hstep

theorem regions_init (buffer : Nat → UInt8) (hcap : 0 < cap) : Regions cap (State.init buffer) where
  send := .off_of (fun _ => rfl) (by simp [State.init])
  initiate := .off_of (fun _ => rfl) (by simp [State.init])
  single := Nat.zero_le _
  filler u := by simp [State.init, Pc.fills]
  tails _ := trivial
  head := hcap
  tail := hcap

/-! ## The duty to call `TrySendAsync` -/

/-- The thread will call `TrySendAsync`, is inside of it with the flag set, or is to post an
InitiateSend completion. -/
def Pc.wakes : Pc → Bool
  | .initiateSend | .initiatePosting | .postInitiateSend | .trySendAsync => true
  | p => p.updatesHead || p.sending

/-- The thread has the token of the send operation after a failure. -/
def Pc.stuck : Pc → Bool
  | .postIoFailed | .sendFailed => true
  | _ => false

/-- Somebody has the duty. -/
def Duty (s : State) : Prop :=
  (∃ t, (s.pc t).wakes = true) ∨ s.initiateQueued ≠ 0 ∨ (s.sendIo ≠ .none ∧ s.sendIo ≠ .failed)

@[simp] theorem Caller.sends_eq_true {caller : Caller} :
    caller.sends = true ↔ caller = .trySendAsync := by
  cases caller <;> simp [sends]

theorem Pc.wakes_of_ownsSend (h : p.ownsSend = true) (hstuck : p.stuck = false) : p.wakes = true := by
  cases p <;> simp_all [ownsSend, stuck, wakes, updatesHead, sending]

theorem Pc.wakes_of_ownsInitiate (h : p.ownsInitiate = true) : p.wakes = true := by
  cases p <;> simp_all [ownsInitiate, wakes]

theorem Pc.ownsSend_of_sending (h : p.sending = true) : p.ownsSend = true := by
  cases p <;> simp_all [sending, ownsSend]

/-- Who has the duty sees to the wake-up. -/
theorem Duty.wakeUp (h : Duty s) (hregions : Regions cap s) : s.WakeUp := by
  rcases h with ⟨t, ht⟩ | hqueued | ⟨hnone, hfailed⟩
  · by_cases hupdates : (s.pc t).updatesHead = true
    · exact Or.inr (Or.inr (Or.inl (Or.inr (Or.inr ⟨t, hupdates⟩))))
    · by_cases hsending : (s.pc t).sending = true
      · have hflag := (hregions.send.of_mem (Pc.ownsSend_of_sending hsending)).1
        exact Or.inr (Or.inr (Or.inr ⟨hflag, t, hsending⟩))
      · cases hq : s.pc t with
        | initiateSend => exact Or.inl ⟨t, hq⟩
        | initiatePosting => exact Or.inr (Or.inl (Or.inr ⟨t, Or.inl hq⟩))
        | postInitiateSend => exact Or.inr (Or.inl (Or.inr ⟨t, Or.inr (Or.inl hq)⟩))
        | trySendAsync => exact Or.inr (Or.inl (Or.inr ⟨t, Or.inr (Or.inr hq)⟩))
        | _ => simp_all [Pc.wakes]
  · exact Or.inr (Or.inl (Or.inl hqueued))
  · cases hio : s.sendIo with
    | none => exact absurd hio hnone
    | failed => exact absurd hio hfailed
    | inFlight call => exact Or.inr (Or.inr (Or.inl (Or.inl ⟨call, hio⟩)))
    | completed n => exact Or.inr (Or.inr (Or.inl (Or.inr (Or.inl ⟨n, hio⟩))))

/-! ### Who hands it on -/

/-- No call on the session has failed. -/
structure Healthy (s : State) : Prop where
  threads : ∀ u, (s.pc u).stuck = false
  io : s.sendIo ≠ .failed

/-- Another thread than that of the step has the duty. -/
theorem Duty.of_ne {u : Nat} (hne : u ≠ t) (hpc : s'.pc = Function.update s.pc t p)
    (hu : (s.pc u).wakes = true) : Duty s' := by
  refine Or.inl ⟨u, ?_⟩
  rw [hpc, Function.update_of_ne hne]
  exact hu

/-- Where the flag of the send operation is on, its holder has the duty. -/
theorem duty_of_online (h : Regions cap s) (hs : Healthy s) (honline : s.isSendOnline = true)
    (ht : (s.pc t).ownsSend = false) (hpc : s'.pc = Function.update s.pc t p)
    (hio : s'.sendIo = s.sendIo) : Duty s' := by
  have hsend := h.send
  rw [honline] at hsend
  rcases hsend.exists_of_on with hout | ⟨u, hu⟩
  · rw [Duty, hio]
    exact Or.inr (Or.inr ⟨hout, hs.io⟩)
  · have hne : u ≠ t := ne_of_apply_ne (fun u => (s.pc u).ownsSend) (by simp [hu, ht])
    exact .of_ne hne hpc (Pc.wakes_of_ownsSend hu (hs.threads u))

/-- Where the flag of the InitiateSend operation is on, its holder has the duty. -/
theorem duty_of_initiateOnline (h : Regions cap s) (honline : s.isInitiateOnline = true)
    (ht : (s.pc t).ownsInitiate = false) (hpc : s'.pc = Function.update s.pc t p)
    (hqueued : s'.initiateQueued = s.initiateQueued) : Duty s' := by
  have hinitiate := h.initiate
  rw [honline] at hinitiate
  rcases hinitiate.exists_of_on with hout | ⟨u, hu⟩
  · rw [Duty, hqueued]
    exact Or.inr (Or.inl hout)
  · have hne : u ≠ t := ne_of_apply_ne (fun u => (s.pc u).ownsInitiate) (by simp [hu, ht])
    exact .of_ne hne hpc (Pc.wakes_of_ownsInitiate hu)

theorem Duty.of_wakes (hpc : s'.pc = Function.update s.pc t p) (hp : p.wakes = true) : Duty s' :=
  Or.inl ⟨t, by rw [hpc, Function.update_self]; exact hp⟩

/-- A step of another thread leaves the duty where it is. -/
theorem Duty.of_other (h : Duty s) (ht : (s.pc t).wakes = false)
    (hpc : s'.pc = Function.update s.pc t p) (hio : s'.sendIo = s.sendIo)
    (hqueued : s'.initiateQueued = s.initiateQueued) : Duty s' := by
  rcases h with ⟨u, hu⟩ | hbeside
  · have hne : u ≠ t := ne_of_apply_ne (fun u => (s.pc u).wakes) (by simp [hu, ht])
    exact .of_ne hne hpc hu
  · rw [Duty, hio, hqueued]
    exact Or.inr hbeside

theorem Pc.stuck_of_fails (h : p.fails = false) : p.stuck = false := by
  cases p <;> simp_all [fails, stuck]

theorem Healthy.threads_update (h : Healthy s) (hp : p.stuck = false) (u : Nat) :
    (Function.update s.pc t p u).stuck = false :=
  forall_update (A := fun _ (p : Pc) => p.stuck = false) (fun u _ => h.threads u) hp u

theorem Healthy.of_moves (h : Healthy s) (hmoves : Moves cap s t p s') (hp : (s'.pc t).fails = false) :
    Healthy s' where
  threads u := by
    rw [hmoves.pc, Function.update_self] at hp
    rw [hmoves.pc]
    exact h.threads_update (Pc.stuck_of_fails hp) u
  io := by
    have hsend := hmoves.send
    generalize s'.isSendOnline = online', s'.sendIo = io' at hsend
    cases hsend with
    | give call _ => nofun
    | _ => exact h.io

/-- What becomes of the duty in a step of a thread that is not in `TryPostReceive`: somebody has it, or
the call has failed, or the session closes, or `TrySendAsync` has found nothing to send. -/
inductive Hands (s : State) (t : Nat) (s' : State) : Prop
  | duty (h : Duty s')
  | fails (h : (s'.pc t).fails = true)
  | closes (h : s'.shouldClose = true)
  | nothing (loadedHead : Nat) (hq : s.pc t = .sendTailLoaded loadedHead loadedHead)
      (hqueue : s.sendAppQueue = []) (hpc : s'.pc = Function.update s.pc t .idle)
      (hsame : (s'.sendAppQueue, s'.head, s'.tail) = (s.sendAppQueue, s.head, s.tail))

theorem Hands.of_wakes (hpc : s'.pc = Function.update s.pc t p) (hp : p.wakes = true) :
    Hands s t s' :=
  .duty (.of_wakes hpc hp)

theorem Hands.of_fails (hpc : s'.pc = Function.update s.pc t p) (hp : p.fails = true) :
    Hands s t s' :=
  .fails (by rw [hpc, Function.update_self]; exact hp)

/-- `TryProcessSendBuffers` returns to `TrySendAsync`. -/
theorem Hands.of_return (r : SendBuffersProcessResult)
    (hpc : s'.pc = Function.update s.pc t (Caller.trySendAsync.goesOn r)) : Hands s t s' := by
  cases r with
  | failed => exact .of_fails hpc rfl
  | success => exact .of_wakes hpc rfl
  | wantProcessReceiveBuffers => exact .of_wakes hpc rfl

theorem Runs.hands (hruns : Runs cap s t q p r) (h : Regions cap s) (hs : Healthy s)
    (hq : s.pc t = q) (hreceiving : q.receiving = false) : Hands s t (r.goto t p) := by
  have hsends (caller : Caller) (hcaller : decide (caller = .tryPostReceive) = false) :
      caller = .trySendAsync := by
    cases caller with
    | trySendAsync => rfl
    | tryPostReceive => cases hcaller
  cases hruns with
  | postIoFailed | trySendAsync_closed | receiveBuffers_failed | sendReadyTail_fails | sendFailed =>
    exact .of_fails rfl rfl
  | trySendAsync_online hon => exact .duty (duty_of_online h hs hon (by rw [hq]; rfl) rfl rfl)
  | sendTailLoaded_nothing loadedHead hqueue => exact .nothing loadedHead hq hqueue rfl rfl
  | sendReadyTail => exact .duty (Or.inr (Or.inr (by simp [State.goto])))
  | processSendBuffers caller | writing_empty caller | writing caller | sslWriting caller
  | sslWriting_wantRead caller | fillHead caller | fillTail caller =>
    obtain rfl := hsends caller hreceiving
    exact .of_wakes rfl rfl
  | sslWriting_error caller =>
    obtain rfl := hsends caller hreceiving
    exact .of_return .failed rfl
  | filling caller wantRead loadedHead loadedTail written hfill =>
    obtain rfl := hsends caller hreceiving
    cases fills_of_fillStep hfill with
    | finish r hpc => exact .of_return r hpc
    | fail hpc => exact .of_return .failed hpc
    | read bytes hpc => exact .of_wakes hpc rfl
  | initiateSend_online hon => exact .duty (duty_of_initiateOnline h hon (by rw [hq]; rfl) rfl rfl)
  | initiatePosting => exact .duty (Or.inr (Or.inl (Nat.succ_ne_zero _)))
  | close => exact .closes rfl
  | _ => exact .of_wakes rfl rfl

/-! ## What is out for the client -/

/-- The thread has neither a message that it has popped in its hands nor bytes from `WriteBio`. -/
def Pc.EmptyHanded : Pc → Prop
  | .sslWriting _ _ => False
  | .filling _ _ _ _ written => written = []
  | _ => True

theorem emptyHanded_of_fills (h : p.fills = false) : p.EmptyHanded := by
  cases p with
  | sslWriting | filling => cases h
  | _ => trivial

namespace Outgoing

variable {o o' : Outgoing}

/-- Data of a pushed message is out for the client, or a thread has it in its hands. -/
def Out (cap : Nat) (o : Outgoing) : Prop := o.Holds cap ∨ o.HandHolds cap

/-- What a step does to the handlers themselves, and to the record of failures. -/
theorem core_of_runStep {answers : Answers} {ciphertext : Tagged}
    (hstep : o.runStep cap t answers ciphertext = some o') :
    SendHandlers.runStep cap o.toState t answers = some o'.toState ∧
    o'.failed = (o.failed || (o'.pc t).fails) := by
  unfold Outgoing.runStep at hstep
  obtain ⟨next, hnext, hstep⟩ := Option.bind_eq_some_iff.mp hstep
  rw [hnext]
  split at hstep
  · split_ifs at hstep
    all_goals cases hstep; exact ⟨rfl, rfl⟩
  · split at hstep
    all_goals
      split_ifs at hstep
      cases hstep
      exact ⟨rfl, rfl⟩
  · cases hstep
    exact ⟨rfl, rfl⟩

/-- Outside of `SSL_write` and the loop over `WriteBio`, nothing happens in `WriteBio`. -/
theorem bio_of_runStep {answers : Answers} {ciphertext : Tagged}
    (hstep : o.runStep cap t answers ciphertext = some o')
    (hwriting : ∀ caller message, o.pc t ≠ .sslWriting caller message)
    (hfilling : ∀ caller wantRead loadedHead loadedTail written,
      o.pc t ≠ .filling caller wantRead loadedHead loadedTail written) :
    (o'.writeBio, o'.pushedAt) = (o.writeBio, o.pushedAt) := by
  unfold Outgoing.runStep at hstep
  obtain ⟨next, hnext, hstep⟩ := Option.bind_eq_some_iff.mp hstep
  split at hstep
  case h_1 hq => exact absurd hq (hwriting _ _)
  case h_2 hq => exact absurd hq (hfilling _ _ _ _ _)
  case h_3 =>
    cases hstep
    rfl

/-- The loop over `WriteBio` takes what it reads from `WriteBio`. -/
theorem bio_of_filling {answers : Answers} {ciphertext : Tagged} {caller : Caller} {wantRead : Bool}
    {loadedHead loadedTail : Nat} {written : Bytes}
    (hstep : o.runStep cap t answers ciphertext = some o')
    (hq : o.pc t = .filling caller wantRead loadedHead loadedTail written) :
    ((o'.pc t).fills = false ∧ (o'.writeBio, o'.pushedAt) = (o.writeBio, o.pushedAt)) ∨
    ∃ tags : Tagged, o.writeBio = tags ++ o'.writeBio ∧
      o'.pushedAt = write o.pushedAt ((loadedTail + written.length) % cap) (tags.map Prod.snd) ∧
      o'.pc = Function.update o.pc t
        (.filling caller wantRead loadedHead loadedTail (written ++ tags.map Prod.fst)) ∧
      o'.toState.beside = o.toState.beside ∧ o'.tail = o.tail ∧
      tags.length ≤ cap - (loadedTail + written.length) % cap := by
  unfold Outgoing.runStep at hstep
  obtain ⟨next, hnext, hstep⟩ := Option.bind_eq_some_iff.mp hstep
  unfold SendHandlers.runStep at hnext
  simp only [hq] at hnext hstep
  have hfills := fills_of_fillStep hnext
  have hreturns (r : SendBuffersProcessResult)
      (hpc : next.pc = Function.update o.pc t (caller.goesOn r)) : (next.pc t).fills = false := by
    rw [hpc, Function.update_self]
    cases caller <;> cases r <;> rfl
  generalize answers.bio = bio at hfills hstep
  cases hfills with
  | finish r hpc =>
    dsimp only at hstep
    split_ifs at hstep
    cases hstep
    exact Or.inl ⟨hreturns r hpc, rfl⟩
  | fail hpc =>
    have hfills := hreturns .failed hpc
    refine Or.inl ?_
    split at hstep
    case h_2 _ hread =>
      rw [hread] at hfills
      cases hfills
    all_goals
      split_ifs at hstep
      cases hstep
      exact ⟨hfills, rfl⟩
  | read bytes hpc hbeside hring hroom =>
    have hread : next.pc t = .filling caller wantRead loadedHead loadedTail (written ++ bytes) := by
      rw [hpc, Function.update_self]
    simp only [hread] at hstep
    split_ifs at hstep with hbytes
    cases hstep
    have hlength : (o.writeBio.take bytes.length).length = bytes.length := by
      conv_rhs => rw [hbytes, List.length_map]
    refine Or.inr ⟨o.writeBio.take bytes.length, (List.take_append_drop ..).symm, rfl, ?_, hbeside,
      (Prod.mk.inj hring).2, by rw [hlength]; exact hroom⟩
    rw [← hbytes]
    exact hpc

/-! ### Nothing gets out on the side -/

/-- A thread that has popped a message and not yet passed it on stays where it is. -/
theorem popped_of_update {u : Nat} {caller : Caller} {message : Bytes} (hp : p.EmptyHanded)
    (hu : Function.update o.pc t p u = .sslWriting caller message) :
    o.pc u = .sslWriting caller message := by
  by_cases hut : u = t
  · subst hut
    rw [Function.update_self] at hu
    subst hu
    cases hp
  · rwa [Function.update_of_ne hut] at hu

theorem HandHolds.of_frame (h : o'.HandHolds cap) (hpc : o'.pc = Function.update o.pc t p)
    (hp : p.EmptyHanded) (hpushed : o'.pushedAt = o.pushedAt) : o.HandHolds cap := by
  rcases h with ⟨u, caller, message, hu⟩ |
    ⟨u, caller, wantRead, loadedHead, loadedTail, written, hu, k, hk, htag⟩
  · rw [hpc] at hu
    exact Or.inl ⟨u, caller, message, popped_of_update hp hu⟩
  · rw [hpc] at hu
    rw [hpushed] at htag
    by_cases hut : u = t
    · subst hut
      rw [Function.update_self] at hu
      subst hu
      obtain rfl : written = [] := hp
      exact absurd hk (Nat.not_lt_zero k)
    · rw [Function.update_of_ne hut] at hu
      exact Or.inr ⟨u, caller, wantRead, loadedHead, loadedTail, written, hu, k, hk, htag⟩

theorem RingHolds.of_frame (h : o'.RingHolds cap)
    (hring : (o'.head, o'.tail, o'.pushedAt) = (o.head, o.tail, o.pushedAt)) : o.RingHolds cap := by
  obtain ⟨hhead, hring⟩ := Prod.mk.inj hring
  obtain ⟨htail, hpushed⟩ := Prod.mk.inj hring
  unfold RingHolds at h
  rw [hhead, htail, hpushed] at h
  exact h

/-- A step that leaves queue, `WriteBio` and ring alone. -/
theorem Out.of_frame (h : o'.Out cap) (hpc : o'.pc = Function.update o.pc t p)
    (hp : p.EmptyHanded) (hqueue : o'.sendAppQueue = o.sendAppQueue)
    (hbio : (o'.writeBio, o'.pushedAt) = (o.writeBio, o.pushedAt))
    (hring : (o'.head, o'.tail) = (o.head, o.tail)) : o.Out cap := by
  obtain ⟨hbio, hpushed⟩ := Prod.mk.inj hbio
  obtain ⟨hhead, htail⟩ := Prod.mk.inj hring
  rcases h with (hholds | hholds | hholds) | hholds
  · exact Or.inl (Or.inl (hqueue ▸ hholds))
  · rw [BioHolds, hbio] at hholds
    exact Or.inl (Or.inr (Or.inl hholds))
  · exact Or.inl (Or.inr (Or.inr (hholds.of_frame (by rw [hhead, htail, hpushed]))))
  · exact Or.inr (hholds.of_frame hpc hp hpushed)

/-- Where a byte has just been tagged, its tag comes from `WriteBio`. -/
theorem bioHolds_of_tag {tags : Tagged} (hbio : o.writeBio = tags ++ o'.writeBio)
    (htag : true ∈ tags.map Prod.snd) : o.BioHolds := by
  obtain ⟨b, hb, htrue⟩ := List.mem_map.mp htag
  exact ⟨b, by rw [hbio]; exact List.mem_append_left _ hb, htrue⟩

/-- What is read from `WriteBio` has been out before. -/
theorem Out.of_read {caller : Caller} {wantRead : Bool} {loadedHead loadedTail : Nat}
    {written : Bytes} {tags : Tagged} (h : o'.Out cap)
    (hq : o.pc t = .filling caller wantRead loadedHead loadedTail written)
    (hbio : o.writeBio = tags ++ o'.writeBio)
    (hpushed : o'.pushedAt =
      write o.pushedAt ((loadedTail + written.length) % cap) (tags.map Prod.snd))
    (hpc : o'.pc = Function.update o.pc t
      (.filling caller wantRead loadedHead loadedTail (written ++ tags.map Prod.fst)))
    (hbeside : o'.toState.beside = o.toState.beside) (htail : o'.tail = o.tail)
    (hroom : tags.length ≤ cap - (loadedTail + written.length) % cap) : o.Out cap := by
  have hout (hb : o.BioHolds) : o.Out cap := Or.inl (Or.inr (Or.inl hb))
  have htag {i : Nat} (hi : o'.pushedAt i = true) : o.pushedAt i = true ∨ o.BioHolds := by
    rw [hpushed] at hi
    rcases write_eq_or_mem o.pushedAt ((loadedTail + written.length) % cap) (tags.map Prod.snd) i with
      heq | hmem
    · exact Or.inl (heq.symm.trans hi)
    · exact Or.inr (bioHolds_of_tag hbio (hi ▸ hmem))
  obtain ⟨hqueue, hhead, -⟩ := State.beside_eq_iff.mp hbeside
  rcases h with (hholds | ⟨b, hb, htrue⟩ | ⟨k, hk, hi⟩) | hholds
  · exact Or.inl (Or.inl (hqueue ▸ hholds))
  · exact hout ⟨b, by rw [hbio]; exact List.mem_append_right _ hb, htrue⟩
  · rw [hhead, htail] at hk
    rw [hhead] at hi
    rcases htag hi with hold | hb
    · exact Or.inl (Or.inr (Or.inr ⟨k, hk, hold⟩))
    · exact hout hb
  · rcases hholds with ⟨u, caller', message, hu⟩ |
      ⟨u, caller', wantRead', loadedHead', loadedTail', written', hu, k, hk, hi⟩
    · rw [hpc] at hu
      by_cases hut : u = t
      · subst hut
        rw [Function.update_self] at hu
        cases hu
      · rw [Function.update_of_ne hut] at hu
        exact Or.inr (Or.inl ⟨u, caller', message, hu⟩)
    rw [hpc] at hu
    by_cases hut : u = t
    · subst hut
      rw [Function.update_self] at hu
      cases hu
      by_cases hkw : k < written.length
      · rcases htag hi with hold | hb
        · exact Or.inr
            (Or.inr ⟨u, caller, wantRead, loadedHead, loadedTail, written, hq, k, hkw, hold⟩)
        · exact hout hb
      · -- the byte is one of those just read
        rw [List.length_append, List.length_map] at hk
        have hj : k - written.length < (tags.map Prod.snd).length := by
          rw [List.length_map]
          omega
        have hposition : (loadedTail + k) % cap =
            (loadedTail + written.length) % cap + (k - written.length) := by
          rw [List.length_map] at hj
          rw [← Nat.mod_eq_of_lt (a := (loadedTail + written.length) % cap + (k - written.length))
            (b := cap) (by omega), Nat.mod_add_mod]
          congr 1
          omega
        rw [hpushed, hposition, write_add hj] at hi
        exact hout (bioHolds_of_tag hbio (hi ▸ List.getElem_mem hj))
    · rw [Function.update_of_ne hut] at hu
      rcases htag hi with hold | hb
      · exact Or.inr
          (Or.inr ⟨u, caller', wantRead', loadedHead', loadedTail', written', hu, k, hk, hold⟩)
      · exact hout hb

/-- What has been read from `WriteBio` is in the ring behind the new tail. -/
theorem Out.of_tail {caller : Caller} {wantRead : Bool} {loadedHead loadedTail : Nat}
    {written : Bytes} (h : o'.Out cap) (hregions : Regions cap o.toState)
    (hq : o.pc t = .filling caller wantRead loadedHead loadedTail written)
    (hpc : o'.pc = Function.update o.pc t p) (hp : p.fills = false)
    (hbeside : o'.toState.beside = o.toState.beside)
    (hbio : (o'.writeBio, o'.pushedAt) = (o.writeBio, o.pushedAt))
    (htail : o'.tail = if 0 < written.length then (loadedTail + written.length) % cap else o.tail) :
    o.Out cap := by
  obtain ⟨hbio, hpushed⟩ := Prod.mk.inj hbio
  obtain ⟨hqueue, hhead, -⟩ := State.beside_eq_iff.mp hbeside
  rcases h with (hholds | hholds | ⟨k, hk, hi⟩) | hholds
  · exact Or.inl (Or.inl (hqueue ▸ hholds))
  · rw [BioHolds, hbio] at hholds
    exact Or.inl (Or.inr (Or.inl hholds))
  · rw [hhead, htail] at hk
    rw [hhead, hpushed] at hi
    have hloaded : loadedTail = o.tail := by
      have htailIs := hregions.tails t
      rwa [hq] at htailIs
    subst hloaded
    split at hk
    · rcases lt_size_or_exists hregions.head hregions.tail hk with hlt | ⟨j, hj, hsame⟩
      · exact Or.inl (Or.inr (Or.inr ⟨k, hlt, hi⟩))
      · rw [hsame] at hi
        exact Or.inr (Or.inr ⟨t, caller, wantRead, loadedHead, o.tail, written, hq, j, hj, hi⟩)
    · exact Or.inl (Or.inr (Or.inr ⟨k, hk, hi⟩))
  · exact Or.inr (hholds.of_frame hpc (emptyHanded_of_fills hp) hpushed)

/-! ### What a call in `TryPostReceive` does -/

theorem wakes_of_receiving (h : p.receiving = true) : p.wakes = false := by
  cases p <;> simp_all [Pc.receiving, Pc.wakes, Pc.updatesHead, Pc.sending]

theorem frame_of_beside (hbeside : s'.beside = s.beside) :
    (s'.shouldClose, s'.sendIo, s'.initiateQueued) = (s.shouldClose, s.sendIo, s.initiateQueued) := by
  obtain ⟨-, -, -, -, hclose, hio, hqueued⟩ := State.beside_eq_iff.mp hbeside
  rw [hclose, hio, hqueued]

/-- A step of a thread in `TryPostReceive` gets nothing out that has not been, and takes nobody else's
duty. -/
theorem receiving_step {answers : Answers} {ciphertext : Tagged} (hregions : Regions cap o.toState)
    (hreceiving : (o.pc t).receiving = true)
    (hstep : o.runStep cap t answers ciphertext = some o') (hp : (o'.pc t).fails = false)
    (hout : o'.Out cap) :
    o.Out cap ∧ (o'.shouldClose, o'.sendIo, o'.initiateQueued) =
      (o.shouldClose, o.sendIo, o.initiateQueued) := by
  obtain ⟨p, r, hruns, hnext⟩ := runs_of_runStep (core_of_runStep hstep).1
  have hbio := bio_of_runStep hstep
  have hfilling := @bio_of_filling cap t o o' answers ciphertext
  obtain ⟨next, writeBio, pushedAt, failed⟩ := o'
  obtain rfl : next = r.goto t p := hnext
  generalize hq : o.pc t = q at hreceiving hruns
  cases hruns with
  | processSendBuffers | fillHead =>
    have hbio := hbio (by rw [hq]; nofun) (by rw [hq]; nofun)
    exact ⟨hout.of_frame rfl trivial rfl hbio rfl, rfl⟩
  | writing_empty caller hqueue =>
    have hbio := hbio (by rw [hq]; nofun) (by rw [hq]; nofun)
    exact ⟨hout.of_frame rfl trivial rfl hbio rfl, rfl⟩
  | writing caller message rest hqueue =>
    -- the message has been out in the queue
    exact ⟨Or.inl (Or.inl (by rw [hqueue]; nofun)), rfl⟩
  | sslWriting caller message | sslWriting_wantRead caller message
  | sslWriting_error caller message =>
    -- the message has been out in the hands of the thread
    exact ⟨Or.inr (Or.inl ⟨t, caller, message, hq⟩), rfl⟩
  | fillTail caller wantRead loadedHead =>
    have hbio := hbio (by rw [hq]; nofun) (by rw [hq]; nofun)
    exact ⟨hout.of_frame rfl rfl rfl hbio rfl, rfl⟩
  | filling caller wantRead loadedHead loadedTail written hfill =>
    have hfills := fills_of_fillStep hfill
    rcases hfilling hstep hq with
      ⟨hreturns, hbio⟩ | ⟨tags, hbio, hpushed, hpc, hbeside, htail, hroom⟩
    · cases hfills with
      | finish r hpc hbeside _ htail =>
        rw [hpc, Function.update_self] at hreturns
        exact ⟨hout.of_tail hregions hq hpc hreturns hbeside hbio htail, frame_of_beside hbeside⟩
      | fail hpc =>
        -- the call has failed
        rw [hpc, Function.update_self] at hp
        cases caller <;> cases hp
      | read bytes hpc =>
        rw [hpc, Function.update_self] at hreturns
        cases hreturns
    · exact ⟨hout.of_read hq hbio hpushed hpc hbeside htail hroom, frame_of_beside hbeside⟩
  | _ => cases hreceiving

/-! ### Steps -/

/-- While no call has failed and the session is not closing, what is out leaves somebody the duty. -/
structure Kept (cap : Nat) (o : Outgoing) : Prop where
  regions : Regions cap o.toState
  healthy : o.failed = false → Healthy o.toState
  duty : o.failed = false → o.shouldClose = false → o.Out cap → Duty o.toState

theorem kept_of_runStep {answers : Answers} {ciphertext : Tagged} (h : Kept cap o)
    (hok : o.NothingMissed cap (.handlers (.run t answers) ciphertext))
    (hstep : o.runStep cap t answers ciphertext = some o') : Kept cap o' := by
  obtain ⟨hcore, hfailed⟩ := core_of_runStep hstep
  obtain ⟨p, hmoves⟩ := moves_of_runStep h.regions hcore
  have hsound (hf : o'.failed = false) : o.failed = false ∧ (o'.pc t).fails = false := by
    rw [hfailed] at hf
    exact Bool.or_eq_false_iff.mp hf
  refine ⟨hmoves.regions h.regions, fun hf => ?_, fun hf hclose hout => ?_⟩
  · obtain ⟨hf, hp⟩ := hsound hf
    exact (h.healthy hf).of_moves hmoves hp
  · obtain ⟨hf, hp⟩ := hsound hf
    by_cases hreceiving : (o.pc t).receiving = true
    · obtain ⟨hout, hsame⟩ := receiving_step h.regions hreceiving hstep hp hout
      obtain ⟨hcloses, hsame⟩ := Prod.mk.inj hsame
      obtain ⟨hio, hqueued⟩ := Prod.mk.inj hsame
      have hduty := h.duty hf (hcloses ▸ hclose) hout
      exact hduty.of_other (wakes_of_receiving hreceiving) hmoves.pc hio hqueued
    · obtain ⟨p, r, hruns, hnext⟩ := runs_of_runStep hcore
      have hhands := hruns.hands h.regions (h.healthy hf) rfl (Bool.eq_false_iff.mpr hreceiving)
      rw [← hnext] at hhands
      cases hhands with
      | duty hduty => exact hduty
      | fails hfails =>
        rw [hfails] at hp
        cases hp
      | closes hcloses =>
        rw [hcloses] at hclose
        cases hclose
      | nothing loadedHead hq hqueue hpc hsame =>
        obtain ⟨hsameQueue, hring⟩ := Prod.mk.inj hsame
        have hbio := bio_of_runStep hstep (by rw [hq]; nofun) (by rw [hq]; nofun)
        have hout := hout.of_frame hpc trivial hsameQueue hbio hring
        rw [NothingMissed, hq] at hok
        obtain ⟨hnoBio, hnoRing, hnoHand⟩ := hok rfl hqueue
        rcases hout with (hholds | hholds | hholds) | hholds
        · exact absurd hqueue hholds
        · exact absurd hholds hnoBio
        · exact absurd hholds hnoRing
        · exact absurd hholds hnoHand

theorem kept_of_startStep {handler : Handler} {next : State} (h : Kept cap o)
    (hstep : startStep o.toState t handler = some next) :
    Kept cap { o with toState := next } := by
  obtain ⟨hq, p, r, hbegins, rfl⟩ := begins_of_startStep hstep
  have hregions := hbegins.regions h.regions hq
  cases hbegins with
  | pushMessage | initiateSendCompletion =>
    exact ⟨hregions, fun hf => ⟨(h.healthy hf).threads_update rfl, (h.healthy hf).io⟩,
      fun _ _ _ => .of_wakes rfl rfl⟩
  | sendCompletion =>
    exact ⟨hregions, fun hf => ⟨(h.healthy hf).threads_update rfl, nofun⟩, fun _ _ _ => .of_wakes rfl rfl⟩
  | sendCompletion_failed hio =>
    exact ⟨hregions, fun hf => absurd hio (h.healthy hf).io, fun hf => absurd hio (h.healthy hf).io⟩
  | tryPostReceive | disconnectSession =>
    refine ⟨hregions, fun hf => ⟨(h.healthy hf).threads_update rfl, (h.healthy hf).io⟩, ?_⟩
    intro hf hclose hout
    have hout : o.Out cap := hout.of_frame rfl trivial rfl rfl rfl
    exact (h.duty hf hclose hout).of_other (by rw [hq]; rfl) rfl rfl rfl

theorem kept_step {a : Action} (h : Kept cap o) (hok : o.NothingMissed cap a)
    (hstep : o.step cap a = some o') : Kept cap o' := by
  cases a with
  | control records =>
    cases hstep
    refine ⟨h.regions, h.healthy, fun hf hclose hout => h.duty hf hclose ?_⟩
    rcases hout with (hqueue | ⟨b, hb, htrue⟩ | hring) | hhand
    · exact Or.inl (Or.inl hqueue)
    · rcases List.mem_append.mp hb with hold | hnew
      · exact Or.inl (Or.inr (Or.inl ⟨b, hold, htrue⟩))
      · -- the records of OpenSSL are of no message
        obtain ⟨c, -, rfl⟩ := List.mem_map.mp hnew
        cases htrue
    · exact Or.inl (Or.inr (Or.inr hring))
    · exact Or.inr hhand
  | handlers a ciphertext =>
    cases a with
    | run t answers => exact kept_of_runStep h hok hstep
    | start t handler =>
      obtain ⟨next, hnext, rfl⟩ := Option.map_eq_some_iff.mp hstep
      exact kept_of_startStep h hnext
    | complete n =>
      obtain ⟨next, hnext, rfl⟩ := Option.map_eq_some_iff.mp hstep
      have hregions := regions_step h.regions hnext
      simp only [SendHandlers.step] at hnext
      split at hnext
      case h_1 call hio =>
        split_ifs at hnext
        cases hnext
        exact ⟨hregions, fun hf => ⟨(h.healthy hf).threads, by simp⟩,
          fun _ _ _ => Or.inr (Or.inr (by simp))⟩
      case h_2 => cases hnext
    | fail =>
      obtain ⟨next, hnext, rfl⟩ := Option.map_eq_some_iff.mp hstep
      exact ⟨regions_step h.regions hnext, by simp, by simp⟩

theorem kept_init (buffer : Nat → UInt8) (hcap : 0 < cap) : Kept cap (init buffer) where
  regions := regions_init buffer hcap
  healthy _ := ⟨fun _ => rfl, nofun⟩
  duty _ _ hout := by
    rcases hout with (hqueue | ⟨b, hb, -⟩ | ⟨k, -, htag⟩) | ⟨u, _, _, hu⟩ | ⟨u, _, _, _, _, _, hu, -⟩
    · exact absurd rfl hqueue
    · cases hb
    · cases htag
    · cases hu
    · cases hu

/-! ## The results -/

/-- **A wake-up for all that is out**, in every run in which `TrySendAsync` does not miss what is out
for the client. -/
theorem awake_of_nothingMissed {buffer : Nat → UInt8} {as : List Action} (hcap : 0 < cap)
    (hok : Meets (step cap) (NothingMissed cap) (init buffer) as)
    (hrun : run (step cap) (init buffer) as = some o) : o.Awake cap := by
  have hkept : Kept cap o :=
    run_invariant (fun _ _ _ h hok hstep => kept_step h hok hstep) (kept_init buffer hcap) hok hrun
  intro hclose hfailed _ hholds
  exact (hkept.duty hfailed hclose (Or.inl hholds)).wakeUp hkept.regions

/-- A thread pushes a message, and another one goes on with it up to `TryProcessSendBuffers`. -/
def pushRun : List Action :=
  let go : Action := .handlers (.run 1 {}) []
  [.handlers (.start 0 (.pushMessage 1 [7])) [], .handlers (.run 0 {}) [],
    .handlers (.run 0 {}) [], .handlers (.start 1 .initiateSendCompletion) [], go, go, go, go, go]

theorem awake_of_nothingMissed_push : ∃ o, run (step 8) (init fun _ => 0) pushRun = some o ∧
    o.Awake 8 ∧ o.Holds 8 := by
  have hmeets : Meets (step 8) (NothingMissed 8) (init fun _ => 0) pushRun := by
    refine .cons trivial rfl (.cons trivial rfl (.cons trivial rfl (.cons trivial rfl
      (.cons trivial rfl (.cons trivial rfl (.cons trivial rfl (.cons trivial rfl
      (.cons ?queued rfl trivial))))))))
    -- the message is still in the queue
    intro _ hqueue
    cases hqueue
  exact ⟨_, rfl, awake_of_nothingMissed (by decide) hmeets
    (show run (step 8) (init fun _ => 0) pushRun = _ from rfl), Or.inl nofun⟩

/-- `TryPostReceive` pops the message and passes it to `SSL_write`, `TrySendAsync` finds neither ring nor
queue filled, and only then is the ciphertext in the ring. -/
def missedRun : List Action :=
  let go (t : Nat) : Action := .handlers (.run t {}) []
  [.handlers (.start 0 (.pushMessage 1 [7])) [], go 0, go 0,
    .handlers (.start 1 .tryPostReceive) [], go 1, go 1, .handlers (.run 1 {}) [(9, true)],
    .handlers (.start 2 .initiateSendCompletion) [], go 2, go 2, go 2, go 2, go 2,
    go 1, go 1, go 1, .handlers (.run 1 { bio := .bytes [9] }) [], go 1]

theorem awake_fails : ∃ o, run (step 8) (init fun _ => 0) missedRun = some o ∧ ¬ o.Awake 8 := by
  obtain ⟨o, hrun, hsame, hidle, hring⟩ :
      ∃ o, run (step 8) (init fun _ => 0) missedRun = some o ∧
        (o.shouldClose, o.failed, o.isSendOnline, o.sendIo, o.initiateQueued) =
          (false, false, false, .none, 0) ∧
        (∀ t, o.pc t = .idle) ∧ o.RingHolds 8 := by
    refine ⟨_, rfl, rfl, fun t => ?_, ⟨0, by decide, rfl⟩⟩
    match t with
    | 0 => rfl
    | 1 => rfl
    | 2 => rfl
    | _ + 3 => rfl
  simp only [Prod.mk.injEq] at hsame
  obtain ⟨hclose, hfailed, honline, hio, hqueued⟩ := hsame
  refine ⟨o, hrun, fun hawake => ?_⟩
  have hwakeUp := hawake hclose hfailed (fun t => by rw [hidle]; rfl) (Or.inr (Or.inr hring))
  simp [State.WakeUp, hidle, hqueued, hio, honline, Pc.updatesHead] at hwakeUp

end Outgoing

end RatkiniaServer.SendHandlers
