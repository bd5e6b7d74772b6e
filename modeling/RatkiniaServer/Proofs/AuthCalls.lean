import RatkiniaServer.Proofs.AuthSteps
import RatkiniaServer.Proofs.NetworkCalls
import RatkiniaServer.Proofs.Rounds
import Mathlib.Algebra.Order.BigOperators.Group.Finset

/-!
# The calls of `A_Auth`

The worker in the `Run` of `A_Auth` is the only worker in the network, and only for the calls that
`A_Auth` makes. In such a call it may have to wait for `sessionsMutex_`. If no thread blocks itself, then
some thread of the server can go on in every state, or an IOCP worker can that holds the mutex.
-/

namespace RatkiniaServer

open Transition

namespace NetworkServer

variable {s s' : NetworkServer} {a : Action} {delivered : Bool}

theorem thread_pushing (a : Action) (delivered : Bool) : (a.pushing delivered).thread = a.thread := by
  cases a <;> rfl

theorem start_of_pushing {t : Nat} {handler : Handler} (h : a.pushing delivered = .start t handler) :
    a = .start t handler := by
  cases a with
  | start u other => exact h
  | run u answers => cases h

theorem initiateSendSucceeds_pushing (h : s.InitiateSendSucceeds a) :
    s.InitiateSendSucceeds (a.pushing delivered) := by
  cases a with
  | start t handler => trivial
  | run t answers => exact h

end NetworkServer

namespace ServerProcess

variable {n : Nat} {r : ActorRegistry} {s s' : ServerProcess n} {a : NetworkServer.Action}

/-- A step of the network is one of `NetworkServer`, up to the result of `TryPushMessageTo`. -/
theorem network_serve (h : s.serve r a = some s') :
    ∃ a', (a' = a ∨ ∃ delivered, a' = a.pushing delivered) ∧ s.network.step a' = some s'.network := by
  unfold serve at h
  cases hrequest : s.network.pushRequest a with
  | none =>
    simp only [hrequest] at h
    obtain ⟨network, hnetwork, rfl⟩ := Option.map_eq_some_iff.mp h
    exact ⟨a, Or.inl rfl, hnetwork⟩
  | some request =>
    simp only [hrequest] at h
    obtain ⟨network, hnetwork, rfl⟩ := Option.map_eq_some_iff.mp h
    exact ⟨_, Or.inr ⟨_, rfl⟩, hnetwork⟩

/-- Where only an actor there is can be notified, a thread of the network can go on as in
`NetworkServer`. -/
theorem exists_serve {name : String} {network : NetworkServer} {t : Nat}
    (hnotifies : (s.network.pc t).notifiesOnly name) (hname : name ∈ r.actors)
    (hrun : s.network.runStep t {} = some network) : ∃ s', s.serve r (.run t {}) = some s' := by
  rw [← Option.isSome_iff_exists]
  unfold serve NetworkServer.pushRequest
  cases hpc : s.network.pc t with
  | cleanupErased context actor held =>
    cases actor with
    | none => simp [hpc, NetworkServer.step, hrun]
    | some actor =>
      rw [hpc] at hnotifies
      obtain rfl : actor = name := hnotifies
      simp [hpc, ActorSystem.tryPushMessageTo, hname, NetworkServer.Action.pushing, NetworkServer.step,
        hrun]
  | _ => simp [hpc, NetworkServer.step, hrun]

end ServerProcess

namespace AuthProcess

variable {b : Bcrypt} {HandleCts : UInt16 → Bytes → Option AuthRequest} {WorkerThreadsCount : UInt32}
  {cts sessionDisconnected : UInt32} {s s' : AuthProcess WorkerThreadsCount.toNat}
  {act : Action WorkerThreadsCount.toNat}

/-! ## The worker in the `Run` of `A_Auth` -/

/-- The worker is in the `Run` of `A_Auth`. -/
def RunsAuth {n : Nat} (s : AuthProcess n) (u : Fin n) : Prop :=
  s.process.actors.Runs registry u Startup.authName

/-- A worker is in the `Run` of `A_Auth`, at `pc`. -/
def AtRun {n : Nat} (s : AuthProcess n) (u : Fin n) (pc : RunPc) : Prop :=
  s.RunsAuth u ∧ s.process.actors.runPc u = pc

theorem inRun_eq_some {n : Nat} {s : AuthProcess n} {u : Fin n} {a : DynamicActor ActorMessage}
    (h : s.process.actors.inRun registry u Startup.authName = some a) : s.AtRun u a.pc := by
  unfold ActorSystem.inRun at h
  cases hpc : (s.process.actors.server.worker u).pc with
  | running i =>
    simp only [hpc] at h
    split_ifs at h with hname
    obtain rfl := Option.some.inj h
    exact ⟨⟨i, hpc, hname⟩, rfl⟩
  | _ => simp [hpc] at h

theorem not_runsAuth {n : Nat} {s : AuthProcess n} {u : Fin n}
    (h : s.process.actors.inRun registry u Startup.authName = none) : ¬ s.RunsAuth u := by
  rintro ⟨i, hpc, hname⟩
  simp [ActorSystem.inRun, hpc, hname] at h

theorem RunsAuth.of_same {u : Fin WorkerThreadsCount.toNat} (h : s.RunsAuth u)
    (hworker : s'.process.actors.server.worker u = s.process.actors.server.worker u) :
    s'.RunsAuth u := by
  obtain ⟨i, hpc, hname⟩ := h
  exact ⟨i, by rw [hworker]; exact hpc, hname⟩

theorem AtRun.of_same {u : Fin WorkerThreadsCount.toNat} {pc : RunPc} (h : s.AtRun u pc)
    (hworker : s'.process.actors.server.worker u = s.process.actors.server.worker u)
    (hrunPc : s'.process.actors.runPc u = s.process.actors.runPc u) : s'.AtRun u pc :=
  ⟨h.1.of_same hworker, hrunPc.trans h.2⟩

/-- A worker that is not in the `Run` of `A_Auth` is in none. -/
theorem not_running {u : Fin WorkerThreadsCount.toNat}
    (hinv : MainServer.Inv registry.actorRunQueue.length s.process.actors.server)
    (hnone : s.process.actors.inRun registry u Startup.authName = none) (i : Nat) :
    (s.process.actors.server.worker u).pc ≠ .running i := by
  intro hpc
  have hlt : i < 1 := hinv.running_lt hpc
  obtain rfl : i = 0 := by omega
  simp [ActorSystem.inRun, hpc, registry] at hnone

/-- A worker leaves the `Run` of `A_Auth` by a step of its own only. -/
theorem RunsAuth.step {u : Fin WorkerThreadsCount.toNat} (h : s.RunsAuth u)
    (hinv : MainServer.Inv registry.actorRunQueue.length s.process.actors.server)
    (hact : act ≠ .worker u) (hstep : step b HandleCts s act = some s') : s'.RunsAuth u := by
  obtain ⟨-, -, -, hserver, -⟩ | ⟨-, -, -, hmain⟩ | ⟨v, rfl, hworker, -⟩ | ⟨hprocess, -⟩ :=
    step_cases hstep
  · exact h.of_same (by rw [hserver])
  · exact h.of_same (by rw [(hinv.stepMain_cases hmain).1])
  · have hne : u ≠ v := fun heq => hact (heq ▸ rfl)
    exact h.of_same (ActorSystem.others_stepWorker hworker hne).1
  · exact h.of_same (by rw [hprocess])

/-! ## Calls and the network -/

theorem responsesSince_of_sameHistory {before after : AuthService}
    (h : after.world.history = before.world.history) : responsesSince before after = [] := by
  rw [responsesSince, h, List.drop_length, List.flatMap_nil]

/-- What a step does in the network, and to the calls that are left. -/
inductive Calls (s s' : AuthProcess WorkerThreadsCount.toNat) :
    Action WorkerThreadsCount.toNat → Prop
  | network (a a' : NetworkServer.Action) (hpushing : a' = a ∨ ∃ delivered, a' = a.pushing delivered)
      (hstart : ∀ t handler, a' = .start t handler →
        WorkerThreadsCount.toNat ≤ t ∧ handler.ofCompletionPort = true)
      (hstep : s.process.network.step a' = some s'.process.network) (hcalls : s'.calls = s.calls) :
      Calls s s' (.network a)
  | call (u : Fin WorkerThreadsCount.toNat) (response : Response) (hruns : s.RunsAuth u)
      (hstep : s.process.network.step (.start u response.call) = some s'.process.network)
      (hcalls : s.calls = response :: s'.calls) : Calls s s' (.call u)
  | quiet (act : Action WorkerThreadsCount.toNat) (hact : ¬ act.inNetwork)
      (houtside : ∀ u, act = .worker u → ¬ s.RunsAuth u)
      (hnetwork : s'.process.network = s.process.network) (hcalls : s'.calls = s.calls) :
      Calls s s' act
  | asks (act : Action WorkerThreadsCount.toNat) (u : Fin WorkerThreadsCount.toNat)
      (hact : ¬ act.inNetwork ∧ ¬ act.isBackground) (hworker : ∀ v, act = .worker v → v = u)
      (hdone : s.calls = [] ∧ s.process.network.pc u = .idle)
      (hnetwork : s'.process.network = s.process.network) (hruns : s'.calls ≠ [] → s'.RunsAuth u) :
      Calls s s' act

theorem not_inNetwork (hact : act.isBackground) :
    ¬ act.inNetwork ∧ ∀ u, act = .worker u → ¬ s.RunsAuth u := by
  cases act with
  | backgroundTake | backgroundExecute | backgroundPush => exact ⟨id, fun u heq => by cases heq⟩
  | _ => exact hact.elim

theorem calls_of_step (hstep : step b HandleCts s act = some s') : Calls s s' act := by
  cases moves_of_step hstep with
  | network a process hstart hserve =>
    obtain ⟨a', hpushing, hnetwork⟩ := ServerProcess.network_serve hserve
    refine .network a a' hpushing (fun t handler heq => hstart t handler ?_) hnetwork rfl
    obtain rfl | ⟨delivered, rfl⟩ := hpushing
    · exact heq
    · exact NetworkServer.start_of_pushing heq
  | call u a response calls process hrun hcalls hserve =>
    obtain ⟨a', hpushing, hnetwork⟩ := ServerProcess.network_serve hserve
    have ha' : a' = .start u response.call := by
      obtain rfl | ⟨delivered, rfl⟩ := hpushing <;> rfl
    exact .call u response (inRun_eq_some hrun).1 (ha' ▸ hnetwork) hcalls
  | main process hprocess =>
    obtain ⟨actors, -, rfl⟩ := Option.map_eq_some_iff.mp hprocess
    exact .quiet _ id (fun u heq => by cases heq) rfl rfl
  | outside u process hrun hprocess =>
    obtain ⟨actors, -, rfl⟩ := Option.map_eq_some_iff.mp hprocess
    refine .quiet _ id (fun v heq => ?_) rfl rfl
    obtain rfl := Action.worker.inj heq
    exact not_runsAuth hrun
  | inside u a auth process hrun hdone hauth hprocess =>
    obtain ⟨actors, hactors, rfl⟩ := Option.map_eq_some_iff.mp hprocess
    refine .asks _ u ⟨id, id⟩ (fun v heq => (Action.worker.inj heq).symm) hdone rfl fun hasks => ?_
    obtain ⟨hruns, hpc⟩ := inRun_eq_some hrun
    by_cases htick : a.pc = .tick
    · -- the end of the call of `Tick` asks for nothing
      have hsame : auth = s.auth := by
        simp only [runAuth, htick] at hauth
        split_ifs at hauth
        exact (Option.some.inj hauth).symm
      refine absurd ?_ hasks
      simp only [hdone.1, hsame, responsesSince_of_sameHistory, List.append_nil]
    · obtain ⟨hserver, -⟩ := ActorSystem.stepWorker_inside hactors hruns fun heq => htick (hpc ▸ heq)
      exact hruns.of_same (congrArg (MainServer.State.worker · u) hserver)
  | tickIterate u a inserted auth hrun hdone hauth =>
    exact .asks _ u ⟨id, id⟩ (fun v heq => by cases heq) hdone rfl fun _ => (inRun_eq_some hrun).1
  | background act act' auth hact hbackground hauth =>
    obtain ⟨hnot, houtside⟩ := not_inNetwork hact
    have hnone := responsesSince_of_sameHistory (AuthService.background_spec hbackground hauth).1
    refine .quiet act hnot houtside rfl ?_
    rw [setAuth, hnone, List.append_nil]

/-! ## The invariant -/

/-- A worker is in the network, or has a call to make, only in the `Run` of `A_Auth`. -/
def CallsInRun {n : Nat} (s : AuthProcess n) : Prop :=
  (s.calls ≠ [] → ∃ u, s.RunsAuth u) ∧ ∀ u : Fin n, s.process.network.pc u ≠ .idle → s.RunsAuth u

/-- The invariant: the workers make no other calls than those of `A_Auth`, and `A_Auth` is the actor of
all sessions. -/
structure CallsInv {n : Nat} (s : AuthProcess n) : Prop where
  associated : s.process.network.Associated Startup.authName
  calling : ∀ u : Fin n, (s.process.network.pc u).calling = true
  inRun : s.CallsInRun

theorem callsInv_init : CallsInv (init WorkerThreadsCount cts sessionDisconnected) where
  associated := NetworkServer.associated_init _
  calling _ := rfl
  inRun := ⟨fun h => absurd rfl h, fun _ h => absurd rfl h⟩

theorem call_cases (response : Response) :
    (∃ context, response.call = .sendMessageTo context) ∨
      ∃ context, response.call = .disconnectSession context := by
  cases response with
  | disconnectSession context => exact Or.inr ⟨context, rfl⟩
  | _ => exact Or.inl ⟨_, rfl⟩

/-- Where a worker is in the network after a step of it. -/
theorem CallsInv.calling_step {a : NetworkServer.Action} {network : NetworkServer} (h : CallsInv s)
    (hstart : ∀ t handler, a = .start t handler → WorkerThreadsCount.toNat ≤ t ∧
      handler.ofCompletionPort = true)
    (hstep : s.process.network.step a = some network) (u : Fin WorkerThreadsCount.toNat) :
    (a.thread ≠ u ∧ network.pc u = s.process.network.pc u) ∨
      (a.thread = u ∧ s.process.network.pc u ≠ .idle ∧ (network.pc u).calling = true ∧
        (network.pc u).callLeft < (s.process.network.pc u).callLeft) := by
  refine NetworkServer.calling_step (h.calling u) (fun t handler heq => ?_) hstep
  have hle := (hstart t handler heq).1
  have hlt := u.isLt
  omega

theorem callsInv_step
    (hinv : MainServer.Inv registry.actorRunQueue.length s.process.actors.server) (h : CallsInv s)
    (hstep : step b HandleCts s act = some s') : CallsInv s' := by
  have hruns (u : Fin WorkerThreadsCount.toNat) (hact : act ≠ .worker u) (hu : s.RunsAuth u) :
      s'.RunsAuth u := hu.step hinv hact hstep
  cases calls_of_step hstep with
  | network a a' hpushing hstart hnetwork hcalls =>
    have hwhere := h.calling_step hstart hnetwork
    refine ⟨h.associated.step (fun t context new heq => ?_) (fun t context current new heq => ?_)
      hnetwork, fun u => ?_, fun hasked => ?_, fun u hbusy => ?_⟩
    · cases (hstart t _ heq).2
    · cases (hstart t _ heq).2
    · obtain ⟨-, hpc⟩ | ⟨-, -, hcalling, -⟩ := hwhere u
      · exact hpc ▸ h.calling u
      · exact hcalling
    · obtain ⟨u, hu⟩ := h.inRun.1 (hcalls ▸ hasked)
      exact ⟨u, hruns u nofun hu⟩
    · refine hruns u nofun (h.inRun.2 u ?_)
      obtain ⟨-, hpc⟩ | ⟨-, hbefore, -⟩ := hwhere u
      · exact hpc ▸ hbusy
      · exact hbefore
  | call u response hu hnetwork hcalls =>
    obtain ⟨-, hcalling, hothers, -⟩ := NetworkServer.calling_start (call_cases response) hnetwork
    have hne (v : Fin WorkerThreadsCount.toNat) (hv : v ≠ u) :
        s'.process.network.pc v = s.process.network.pc v := hothers v (Fin.val_ne_of_ne hv)
    refine ⟨h.associated.step (fun t context new heq => ?_) (fun t context current new heq => ?_)
      hnetwork, fun v => ?_, fun _ => ⟨u, hruns u nofun hu⟩, fun v hbusy => hruns v nofun ?_⟩
    · cases response <;> cases heq
    · cases response <;> cases heq
    · rcases eq_or_ne v u with rfl | hv
      · exact hcalling
      · exact hne v hv ▸ h.calling v
    · rcases eq_or_ne v u with rfl | hv
      · exact hu
      · exact h.inRun.2 v (hne v hv ▸ hbusy)
  | quiet _ hact houtside hnetwork hcalls =>
    have hstays (u : Fin WorkerThreadsCount.toNat) (hu : s.RunsAuth u) : s'.RunsAuth u :=
      hruns u (fun heq => houtside u heq hu) hu
    refine ⟨hnetwork ▸ h.associated, hnetwork ▸ h.calling, fun hasked => ?_, fun u hbusy => ?_⟩
    · obtain ⟨u, hu⟩ := h.inRun.1 (hcalls ▸ hasked)
      exact ⟨u, hstays u hu⟩
    · exact hstays u (h.inRun.2 u (hnetwork ▸ hbusy))
  | asks _ u hact hworker hdone hnetwork hasks =>
    refine ⟨hnetwork ▸ h.associated, hnetwork ▸ h.calling, fun hasked => ⟨u, hasks hasked⟩,
      fun v hbusy => ?_⟩
    rw [hnetwork] at hbusy
    refine hruns v (fun heq => hbusy ?_) (h.inRun.2 v hbusy)
    rw [hworker v heq]
    exact hdone.2

/-! ## What is left of the calls -/

/-- The calls that are left to make, and the steps that are left of the one that a worker is in. -/
def callsLeft {n : Nat} (s : AuthProcess n) : ℕ ×ₗ ℕ :=
  toLex (s.calls.length, ∑ u : Fin n, (s.process.network.pc u).callLeft)

/-- Each step of a worker in the network brings the end of the calls closer; an IOCP worker leaves them
as they are. -/
theorem CallsInv.callsLeft_network (h : CallsInv s) (hact : act.inNetwork)
    (hstep : step b HandleCts s act = some s') :
    (¬ act.isThread ∧ s'.callsLeft = s.callsLeft) ∨ s'.callsLeft < s.callsLeft := by
  cases calls_of_step hstep with
  | network a a' hpushing hstart hnetwork hcalls =>
    have hwhere := h.calling_step hstart hnetwork
    have hthread : a'.thread = a.thread := by
      obtain rfl | ⟨delivered, rfl⟩ := hpushing
      · rfl
      · exact NetworkServer.thread_pushing a delivered
    by_cases hworker : a.thread < WorkerThreadsCount.toNat
    · right
      refine Prod.Lex.toLex_lt_toLex.mpr (Or.inr ⟨by rw [hcalls], ?_⟩)
      let t : Fin WorkerThreadsCount.toNat := ⟨a.thread, hworker⟩
      refine Finset.sum_lt_sum (fun u _ => ?_) ⟨t, Finset.mem_univ t, ?_⟩
      · obtain ⟨-, hpc⟩ | ⟨-, -, -, hless⟩ := hwhere u
        · exact (congrArg _ hpc).le
        · exact hless.le
      · obtain ⟨hne, -⟩ | ⟨-, -, -, hless⟩ := hwhere t
        · exact absurd hthread hne
        · exact hless
    · left
      have hsame (u : Fin WorkerThreadsCount.toNat) :
          s'.process.network.pc u = s.process.network.pc u := by
        obtain ⟨-, hpc⟩ | ⟨heq, -⟩ := hwhere u
        · exact hpc
        · have hlt := u.isLt
          omega
      refine ⟨fun hisThread => hworker ?_, ?_⟩
      · cases a with
        | start t handler => exact hisThread.elim
        | run t answers => exact hisThread
      · simp only [callsLeft, hcalls, hsame]
  | call u response hu hnetwork hcalls =>
    right
    refine Prod.Lex.toLex_lt_toLex.mpr (Or.inl ?_)
    simp [hcalls]
  | quiet _ hnot => exact absurd hact hnot
  | asks _ u hnot => exact absurd hact hnot.1

/-- The background thread leaves the calls as they are. -/
theorem callsLeft_background (hact : act.isBackground) (hstep : step b HandleCts s act = some s') :
    s'.callsLeft = s.callsLeft := by
  cases calls_of_step hstep with
  | network | call => exact hact.elim
  | quiet _ _ _ hnetwork hcalls => simp only [callsLeft, hnetwork, hcalls]
  | asks _ u hnot => exact absurd hact hnot.2

/-! ## Nobody is stuck -/

/-- `TrySendAsync` does not fail in the InitiateSend handler. -/
def InitiateSendSucceeds {n : Nat} (s : AuthProcess n) : Action n → Prop
  | .network a => s.process.network.InitiateSendSucceeds a
  | _ => True

/-- The step is one of the InitiateSend handler in `TrySendAsync`. -/
def initiateSends {n : Nat} (s : AuthProcess n) : Action n → Bool
  | .network (.run t _) => (s.process.network.pc t).initiateSending
  | _ => false

/-- The condition says something of these steps only. -/
theorem initiateSendSucceeds_of_not {n : Nat} {s : AuthProcess n} {act : Action n}
    (h : s.initiateSends act = false) : s.InitiateSendSucceeds act := by
  cases act with
  | network a =>
    by_contra hnot
    obtain ⟨t, answers, rfl, hsending⟩ := NetworkServer.initiateSending_of_not_succeeds hnot
    cases h.symm.trans hsending
  | _ => trivial

/-- No thread blocks itself, if `TrySendAsync` does not fail in the InitiateSend handler. -/
theorem apart_step (h : s.process.network.Apart) (hok : s.InitiateSendSucceeds act)
    (hstep : step b HandleCts s act = some s') : s'.process.network.Apart := by
  cases calls_of_step hstep with
  | network a a' hpushing hstart hnetwork hcalls =>
    refine h.step_of_succeeds ?_ hnetwork
    obtain rfl | ⟨delivered, rfl⟩ := hpushing
    · exact hok
    · exact NetworkServer.initiateSendSucceeds_pushing hok
  | call u response hu hnetwork hcalls =>
    have hok' : s.process.network.InitiateSendSucceeds (.start u response.call) := trivial
    exact h.step_of_succeeds hok' hnetwork
  | quiet _ _ _ hnetwork => exact hnetwork ▸ h
  | asks _ u _ _ _ hnetwork => exact hnetwork ▸ h

variable (b HandleCts) in
/-- A thread of the server can go on. -/
def CanGoOn (s : AuthProcess WorkerThreadsCount.toNat) : Prop :=
  ∃ act : Action WorkerThreadsCount.toNat, act.isThread ∧ ∃ s', step b HandleCts s act = some s'

variable (b HandleCts) in
/-- A worker waits for `sessionsMutex_` in a call, and an IOCP worker that holds it can go on. -/
def WaitsInCall (s : AuthProcess WorkerThreadsCount.toNat) : Prop :=
  ∃ (t : Fin WorkerThreadsCount.toNat) (u : Nat), (s.process.network.pc t).requests = true ∧
    WorkerThreadsCount.toNat ≤ u ∧ s.process.network.sessionsMutex.HeldBy u ∧
    ∃ answers s', step b HandleCts s (.network (.run u answers)) = some s'

/-- Where no thread blocks itself and every session finds its place free, a worker in a call can go on, or
it waits for a thread that can. -/
theorem CallsInv.exists_step_of_busy {t : Fin WorkerThreadsCount.toNat} (h : CallsInv s)
    (hapart : s.process.network.Apart)
    (hfree : ∀ u o, s.process.network.pc u = .acceptLocked o →
      s.process.network.sessions (NetworkServer.contextOf o) = none)
    (hbusy : s.process.network.pc t ≠ .idle) : s.CanGoOn b HandleCts ∨ s.WaitsInCall b HandleCts := by
  have hgoes (u : Nat) (hrun : ∃ network, s.process.network.runStep u {} = some network) :
      ∃ s', step b HandleCts s (.network (.run u {})) = some s' := by
    obtain ⟨network, hnetwork⟩ := hrun
    have hname : Startup.authName ∈ registry.actors := List.mem_singleton_self _
    obtain ⟨process, hprocess⟩ :=
      ServerProcess.exists_serve (h.associated.threads u) hname hnetwork
    exact ⟨{ s with process := process }, Option.map_eq_some_iff.mpr ⟨process, hprocess, rfl⟩⟩
  obtain hrun | ⟨hrequests, u, -, hheld, hrun⟩ := hapart.exists_run hfree hbusy
  · exact Or.inl ⟨.network (.run t {}), t.isLt, hgoes t hrun⟩
  · by_cases hu : u < WorkerThreadsCount.toNat
    · exact Or.inl ⟨.network (.run u {}), hu, hgoes u hrun⟩
    · exact Or.inr ⟨t, u, hrequests, Nat.le_of_not_lt hu, hheld, {}, hgoes u hrun⟩

/-- **No deadlock.** A thread of the server can go on, be it in the loop of `Tick` or in a call, or a
worker waits in a call for an IOCP worker that can. -/
theorem CallsInv.exists_step {messageHandlers : String → UInt32 → Bool}
    {typeIndex : ActorMessage → UInt32} (h : CallsInv s)
    (hsys : ActorSystem.Inv registry messageHandlers typeIndex s.process.actors)
    (hinv : MainServer.Inv registry.actorRunQueue.length s.process.actors.server)
    (hapart : s.process.network.Apart)
    (hfree : ∀ u o, s.process.network.pc u = .acceptLocked o →
      s.process.network.sessions (NetworkServer.contextOf o) = none) :
    s.CanGoOn b HandleCts ∨ s.WaitsInCall b HandleCts := by
  obtain ⟨act, hact, actors, hactors⟩ := ActorSystem.exists_step hsys hinv
  cases act with
  | main =>
    refine Or.inl ⟨.main, trivial, { s with process := { s.process with actors := actors } }, ?_⟩
    simp only [step, stepProcess, ServerProcess.step, hactors, Option.map_some]
  | worker u =>
    cases hrun : s.process.actors.inRun registry u Startup.authName with
    | none =>
      refine Or.inl ⟨.worker u, trivial, { s with process := { s.process with actors := actors } }, ?_⟩
      simp only [step, stepProcess, ServerProcess.step, hactors, Option.map_some, hrun]
    | some a =>
      by_cases hbusy : s.process.network.pc u = .idle
      swap
      · exact h.exists_step_of_busy hapart hfree hbusy
      left
      cases hcalls : s.calls with
      | cons response calls =>
        refine ⟨.call u, trivial, ?_⟩
        rw [← Option.isSome_iff_exists]
        cases response <;>
          simp [step, hrun, hcalls, stepProcess, ServerProcess.step, ServerProcess.serve,
            NetworkServer.pushRequest, NetworkServer.step, NetworkServer.startStep, hbusy, Response.call]
      | nil =>
        have hdone : s.inCalls u = false := by
          simp [inCalls, hcalls, hbusy, NetworkServer.Pc.isIdle]
        cases hticking : s.auth.world.auth.ticking with
        | true =>
          refine ⟨.tickIterate u none, trivial, ?_⟩
          simp [step, hrun, hdone, stepAuth, AuthService.step, AuthService.Action.ofActor, A_Auth.step,
            hticking]
        | false =>
          obtain ⟨auth, hauth⟩ := exists_runAuth b HandleCts a hticking
          refine ⟨.worker u, trivial, ?_⟩
          simp [step, hrun, hdone, hauth, setAuth, stepProcess, ServerProcess.step, hactors]
  | tryPushMessageTo name message => exact hact.elim

/-! ## The server's own steps -/

/-- Where the steps are those of the server's threads and of the background thread, the IOCP workers stay
where they are, and nothing stands against the assumptions about them. -/
theorem CallsInv.own_step (h : CallsInv s) (hact : act.isThread ∨ act.isBackground)
    (hstep : step b HandleCts s act = some s') :
    (∀ u, WorkerThreadsCount.toNat ≤ u → s'.process.network.pc u = s.process.network.pc u) ∧
      s'.process.network.created = s.process.network.created ∧ s.ReceivesFound act ∧
      s.InitiateSendSucceeds act := by
  cases act with
  | network a =>
    cases a with
    | start t handler => exact (hact.elim id id).elim
    | run t answers =>
      have hlt : t < WorkerThreadsCount.toNat := hact.elim id False.elim
      have hcalling := h.calling ⟨t, hlt⟩
      cases calls_of_step hstep with
      | quiet _ hnot => exact absurd trivial hnot
      | asks _ u hnot => exact absurd trivial hnot.1
      | network _ a' hpushing hstart hnetwork =>
        obtain ⟨answers', rfl⟩ : ∃ answers', a' = .run t answers' := by
          obtain rfl | ⟨delivered, rfl⟩ := hpushing
          · exact ⟨answers, rfl⟩
          · exact ⟨_, rfl⟩
        obtain ⟨p, r, hruns, hgoto⟩ := NetworkServer.runs_of_runStep hnetwork
        refine ⟨fun u hu => ?_, ?_, ?_, ?_⟩
        · have hne : u ≠ t := by omega
          rw [hgoto, hruns.pc_goto, Function.update_of_ne hne]
        · rw [hgoto]
          exact hruns.created_eq
        · simp only [ReceivesFound, NetworkServer.ReceivesFound]
          cases hpc : s.process.network.pc t <;> simp_all [NetworkServer.Pc.calling]
        · simp only [InitiateSendSucceeds, NetworkServer.InitiateSendSucceeds]
          cases hpc : s.process.network.pc t <;> simp_all [NetworkServer.Pc.calling]
  | call t =>
    cases calls_of_step hstep with
    | quiet _ hnot => exact absurd trivial hnot
    | asks _ u hnot => exact absurd trivial hnot.1
    | call _ response hu hnetwork hcalls =>
      obtain ⟨-, -, hothers, hcreated⟩ :=
        NetworkServer.calling_start (call_cases response) hnetwork
      refine ⟨fun u hle => hothers u ?_, hcreated, trivial, trivial⟩
      have hlt := t.isLt
      omega
  | main | worker | tickIterate | backgroundTake | backgroundExecute | backgroundPush =>
    cases calls_of_step hstep with
    | quiet _ _ _ hnetwork => exact ⟨fun u _ => by rw [hnetwork], by rw [hnetwork], trivial, trivial⟩
    | asks _ u _ _ _ hnetwork => exact ⟨fun u _ => by rw [hnetwork], by rw [hnetwork], trivial, trivial⟩

end AuthProcess

end RatkiniaServer
