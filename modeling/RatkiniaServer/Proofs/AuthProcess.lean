import RatkiniaServer.AuthProcess
import RatkiniaServer.Database.Proofs.DbServiceAccount
import RatkiniaServer.Proofs.ServerProcess

/-!
# A session that is gone is offline for good

`A_Auth` handles what it hears, in that order. So after the notice of a session it accepts no request of
it any more: once none of its jobs is under way, an account can never again be online on its behalf.
-/

namespace RatkiniaServer

open Transition

/-! ## What a step of `Run` passes on -/

theorem DynamicActor.delivered_run {M : Type*} {a a' : DynamicActor M} (hrun : a.run = some a') :
    a'.delivered.map Delivery.message = a.delivered.map Delivery.message ++ a.handed.toList := by
  cases hpc : a.pc with
  | looping index i size =>
    simp only [DynamicActor.run, hpc] at hrun
    simp only [handed, hpc]
    split_ifs at hrun ⊢ with hi
    · obtain rfl := Option.some.inj hrun
      simp
    · cases hget : (a.messageQueue index)[i]? with
      | none => simp [hget] at hrun
      | some message =>
        cases message with
        | none => simp [hget] at hrun
        | some m =>
          simp only [hget, Option.some.injEq] at hrun
          subst hrun
          simp [deliver_message]
  | entered =>
    simp only [DynamicActor.run, hpc] at hrun
    split_ifs at hrun <;> obtain rfl := Option.some.inj hrun <;> simp [handed, hpc]
  | idle | swapping | beforeLoop | clearing | tick =>
    simp only [DynamicActor.run, hpc, Option.some.injEq] at hrun
    subst hrun
    simp [handed, hpc]

/-- A worker passes on what its step in the `Run` of an actor passes on, and nothing elsewhere. -/
theorem ActorSystem.delivered_stepWorker {n : Nat} {M : Type*} {r : ActorRegistry}
    {s s' : ActorSystem n M} {t : Fin n} (hstep : s.stepWorker r t = some s') (name : String) :
    (s'.actor name).delivered.map Delivery.message =
      (s.actor name).delivered.map Delivery.message ++
        ((s.inRun r t name).bind DynamicActor.handed).toList := by
  obtain ⟨server, hpc, -, rfl⟩ | ⟨i, other, a, hpc, hi, hrun, hcases⟩ := stepWorker_cases hstep
  · have hnone : s.inRun r t name = none := by
      unfold inRun
      cases h : (s.server.worker t).pc with
      | running i => exact absurd h (hpc i)
      | _ => rfl
    simp [hnone]
  have hset : ((s.setActor t other a).actor name).delivered.map Delivery.message =
      (s.actor name).delivered.map Delivery.message ++
        ((s.inRun r t name).bind DynamicActor.handed).toList := by
    simp only [inRun, hpc, hi, Option.some.injEq]
    rcases eq_or_ne name other with rfl | hne
    · rw [actor_setActor_self, if_pos rfl, Option.bind_some]
      exact DynamicActor.delivered_run hrun
    · rw [actor_setActor_of_ne s t a hne, if_neg (Ne.symm hne)]
      simp
  obtain ⟨-, rfl⟩ | ⟨-, rfl⟩ := hcases <;> exact hset

/-- A push delivers nothing. -/
theorem ActorSystem.delivered_tryPushMessageTo {n : Nat} {M : Type*} (r : ActorRegistry)
    (s : ActorSystem n M) (name : String) (message : Option M) (other : String) :
    ((s.tryPushMessageTo r name message).2.actor other).delivered = (s.actor other).delivered := by
  by_cases hname : name ∈ r.actors
  · simp only [tryPushMessageTo, hname, if_true]
    rcases eq_or_ne other name with rfl | hne
    · rw [Function.update_self]
      cases message <;> rfl
    · rw [Function.update_of_ne hne]
  · simp only [tryPushMessageTo, hname, if_false]

theorem ServerProcess.delivered_serve {n : Nat} {r : ActorRegistry} {s s' : ServerProcess n}
    {a : NetworkServer.Action} (h : s.serve r a = some s') (name : String) :
    (s'.actors.actor name).delivered = (s.actors.actor name).delivered := by
  unfold serve at h
  cases hrequest : s.network.pushRequest a with
  | none =>
    simp only [hrequest] at h
    obtain ⟨network, -, rfl⟩ := Option.map_eq_some_iff.mp h
    rfl
  | some request =>
    simp only [hrequest] at h
    obtain ⟨network, -, rfl⟩ := Option.map_eq_some_iff.mp h
    exact ActorSystem.delivered_tryPushMessageTo ..

/-! ## What `A_Auth` takes in -/

/-- The context of a message, and whether it is a notice. -/
def ActorMessage.kind : ActorMessage → UInt32 × Bool
  | .cts context _ _ => (context, false)
  | .sessionDisconnected context => (context, true)

theorem ActorMessage.kind_fst (message : ActorMessage) : message.kind.1 = message.context := by
  cases message <;> rfl

namespace AuthService

variable {b : Bcrypt} {s s' : AuthService} {act : Action}

/-- A request that has become a job, or a notice. -/
def input : A_Auth.Event → Option (UInt32 × Bool)
  | .accepted job => some (job.context, false)
  | .disconnected context => some (context, true)
  | _ => none

/-- The message that the step handles. -/
def Action.input : Action → Option (UInt32 × Bool)
  | .registerRequest context _ _ | .loginRequest context _ _ => some (context, false)
  | .sessionDisconnected context => some (context, true)
  | _ => none

theorem context_onRegisterRequest {context : UInt32} {account password : Bytes} {job : AuthJob}
    (h : A_Auth.onRegisterRequest context account password = .inl job) : job.context = context := by
  unfold A_Auth.onRegisterRequest at h
  split at h
  · cases h
  · obtain rfl := Sum.inl.inj h
    rfl

theorem context_onLoginRequest {a : A_Auth} {pairOf : Bytes → Option (UInt64 × Bytes)}
    {context : UInt32} {account password : Bytes} {job : AuthJob}
    (h : a.onLoginRequest pairOf context account password = .inl job) : job.context = context := by
  unfold A_Auth.onLoginRequest at h
  split_ifs at h
  obtain rfl := Sum.inl.inj h
  unfold A_Auth.loginJobOf
  cases pairOf account <;> rfl

/-- The steps of `AuthBackgroundThreadBody`. -/
def Action.isBackground : Action → Prop
  | .backgroundTake | .backgroundExecute _ | .backgroundPush => True
  | _ => False

theorem input_of_isBackground (h : act.isBackground) : act.input = none := by
  cases act with
  | backgroundTake | backgroundExecute | backgroundPush => rfl
  | _ => exact h.elim

/-- The jobs that are between a request and its answer. -/
def underWay (a : A_Auth) : List AuthJob :=
  a.authJobForegroundQueue ++ a.inHand.jobs ++ a.authJobBackgroundQueue

/-- The contexts with a job under way. -/
def busy (a : A_Auth) : List UInt32 := (underWay a).map AuthJob.context

theorem context_of_execute {salt : Bytes} {job job' : AuthJob}
    (h : job.executeBackgroundJob b salt = some job') : job'.context = job.context := by
  cases job with
  | login job =>
    obtain rfl := Option.some.inj h
    rfl
  | register job =>
    obtain ⟨executed, hexecuted, rfl⟩ := Option.map_eq_some_iff.mp h
    obtain ⟨hash, -, rfl⟩ := Option.map_eq_some_iff.mp hexecuted
    rfl

/-- What becomes of the history and of the jobs under way when a message may have been handled. -/
structure Takes (s : AuthService) (taken : Option (UInt32 × Bool)) (s' : AuthService)
    (events : List A_Auth.Event) : Prop where
  history : s'.world.history = s.world.history ++ events
  /-- a request may be refused -/
  inputs : (events.filterMap input).Sublist taken.toList
  notice : ∀ context, taken = some (context, true) → events = [.disconnected context]
  busy : ∀ context ∈ busy s'.world.auth, context ∈ AuthService.busy s.world.auth ∨
    (context, false) ∈ events.filterMap AuthService.input

theorem Takes.of_quiet {taken : Option (UInt32 × Bool)}
    (hhistory : s'.world.history = s.world.history) (htaken : ∀ context, taken ≠ some (context, true))
    (hbusy : ∀ context ∈ AuthService.busy s'.world.auth, context ∈ AuthService.busy s.world.auth) :
    Takes s taken s' [] where
  history := hhistory.trans (List.append_nil _).symm
  inputs := List.nil_sublist _
  notice context h := absurd h (htaken context)
  busy context h := Or.inl (hbusy context h)

/-- A request becomes a job of its context, or is refused. -/
theorem takes_request {outcome : AuthJob ⊕ List Response} {context : UInt32}
    {accounts : List DbService_Account.Row} {logins : List LoginRequest}
    (hcontext : ∀ job, outcome = .inl job → job.context = context) :
    ∃ events, Takes s (some (context, false)) ⟨s.world.request outcome, accounts, logins⟩ events := by
  cases outcome with
  | inl job =>
    obtain rfl := hcontext job rfl
    refine ⟨[.accepted job], rfl, List.Sublist.refl _, by simp, fun context h => ?_⟩
    have hmem : context ∈ (underWay s.world.auth ++ [job]).map AuthJob.context := by
      simpa [AuthService.busy, underWay, A_Auth.World.request, A_Auth.pushJob] using h
    rw [List.map_append, List.mem_append] at hmem
    refine hmem.imp_right fun hjob => ?_
    obtain rfl := List.mem_singleton.mp hjob
    exact List.mem_singleton_self _
  | inr responses =>
    exact ⟨[.refused responses], rfl, List.nil_sublist _, by simp, fun context h => Or.inl h⟩

theorem none_ne_notice (context : UInt32) : (none : Option (UInt32 × Bool)) ≠ some (context, true) :=
  (Option.some_ne_none _).symm

theorem takes_of_step (hstep : s.step b act = some s') :
    ∃ events, Takes s act.input s' events := by
  obtain ⟨w, hw, rfl⟩ := Option.map_eq_some_iff.mp hstep
  cases act with
  | registerRequest context account password =>
    simp only [Action.ofActor, A_Auth.step] at hw
    split_ifs at hw
    obtain rfl := Option.some.inj hw
    exact takes_request fun _ => context_onRegisterRequest
  | loginRequest context account password =>
    simp only [Action.ofActor, A_Auth.step] at hw
    split_ifs at hw
    obtain rfl := Option.some.inj hw
    exact takes_request fun _ => context_onLoginRequest
  | sessionDisconnected context =>
    simp only [Action.ofActor, A_Auth.step] at hw
    split_ifs at hw
    obtain rfl := Option.some.inj hw
    refine ⟨[.disconnected context], rfl, List.Sublist.refl _, ?_, fun c hc => Or.inl ?_⟩
    · intro c hc
      rw [(Prod.mk.inj (Option.some.inj hc)).1]
    · have hsame : underWay (s.world.auth.handleSessionDisconnected context) =
          underWay s.world.auth := by
        unfold A_Auth.handleSessionDisconnected
        cases s.world.auth.contextIdMap context <;> rfl
      rwa [AuthService.busy, hsame] at hc
  | tickBegin =>
    simp only [Action.ofActor, A_Auth.step] at hw
    split_ifs at hw
    obtain rfl := Option.some.inj hw
    exact ⟨[], .of_quiet rfl none_ne_notice fun _ h => h⟩
  | tickIterate inserted =>
    simp only [Action.ofActor, A_Auth.step] at hw
    split_ifs at hw
    obtain rfl := Option.some.inj hw
    cases hq : s.world.auth.authJobForegroundQueue with
    | nil =>
      refine ⟨[], .of_quiet ?_ none_ne_notice fun c hc => ?_⟩
      · simp only [A_Auth.World.tickIterate, hq]
      · simpa [AuthService.busy, underWay, A_Auth.World.tickIterate, hq] using hc
    | cons job rest =>
      refine ⟨_, A_Auth.tickIterate_history hq, List.nil_sublist _,
        fun c hc => absurd hc (none_ne_notice c), fun c hc => Or.inl ?_⟩
      · have hrest : underWay (s.world.tickIterate fun account password =>
            (DbService_Account.tryCreateAccount s.accounts inserted account password).2).auth =
              rest ++ s.world.auth.inHand.jobs ++ s.world.auth.authJobBackgroundQueue := by
          simp only [A_Auth.World.tickIterate, hq, underWay, A_Auth.answer, A_Auth.addContext]
          cases job <;> simp only [] <;> split_ifs <;> rfl
        rw [AuthService.busy, hrest] at hc
        rw [AuthService.busy, underWay, hq]
        exact List.mem_cons_of_mem _ hc
  | backgroundTake =>
    simp only [Action.ofActor, A_Auth.step] at hw
    cases hhand : s.world.auth.inHand with
    | taken job => simp [hhand] at hw
    | executed job => simp [hhand] at hw
    | nothing =>
      simp only [hhand, Option.some.injEq] at hw
      subst hw
      refine ⟨[], .of_quiet rfl none_ne_notice fun c hc => ?_⟩
      cases hq : s.world.auth.authJobBackgroundQueue with
      | nil => simpa [AuthService.busy, underWay, A_Auth.backgroundTake, hq] using hc
      | cons job rest =>
        simpa [AuthService.busy, underWay, A_Auth.backgroundTake, hq, hhand, InHand.jobs] using hc
  | backgroundExecute salt =>
    simp only [Action.ofActor, A_Auth.step] at hw
    cases hhand : s.world.auth.inHand with
    | nothing => simp [hhand] at hw
    | executed job => simp [hhand] at hw
    | taken job =>
      simp only [hhand] at hw
      obtain ⟨a, ha, rfl⟩ := Option.map_eq_some_iff.mp hw
      obtain ⟨executed, hexecuted, rfl⟩ := Option.map_eq_some_iff.mp ha
      refine ⟨[], .of_quiet rfl none_ne_notice fun c hc => ?_⟩
      have hcontext := context_of_execute hexecuted
      simpa [AuthService.busy, underWay, hhand, InHand.jobs, hcontext] using hc
  | backgroundPush =>
    simp only [Action.ofActor, A_Auth.step] at hw
    cases hhand : s.world.auth.inHand with
    | nothing => simp [hhand] at hw
    | taken job => simp [hhand] at hw
    | executed job =>
      simp only [hhand, Option.some.injEq] at hw
      subst hw
      refine ⟨[], .of_quiet rfl none_ne_notice fun c hc => ?_⟩
      simpa [AuthService.busy, underWay, A_Auth.backgroundPush, hhand, InHand.jobs] using hc

/-- Only a job that is under way brings a context online. -/
theorem online_of_step {context : UInt32} {id : UInt64} (hstep : s.step b act = some s')
    (honline : s'.world.auth.contextIdMap context = some id) :
    s.world.auth.contextIdMap context = some id ∨ context ∈ busy s.world.auth := by
  obtain ⟨w, hw, rfl⟩ := Option.map_eq_some_iff.mp hstep
  obtain ⟨hsame, -⟩ | ⟨c, -, hauth, -⟩ | ⟨_, job, rest, -, -, hq, -, -, -, hlogin, -⟩ :=
    A_Auth.step_cases hw
  · exact Or.inl (hsame.1 ▸ honline)
  · simp only [hauth, A_Auth.handleSessionDisconnected] at honline
    left
    cases hc : s.world.auth.contextIdMap c with
    | none => simpa only [hc] using honline
    | some id' =>
      simp only [hc, Function.update_apply] at honline
      split_ifs at honline
      exact honline
  · simp only [hlogin.1, Function.update_apply] at honline
    split_ifs at honline with hcontext
    · right
      rw [hcontext, busy, underWay, hq]
      exact List.mem_cons_self ..
    · exact Or.inl honline

end AuthService

namespace AuthProcess

variable {b : Bcrypt} {HandleCts : UInt16 → Bytes → Option AuthRequest}
  {WorkerThreadsCount cts sessionDisconnected : UInt32}
  {s s' t : AuthProcess WorkerThreadsCount.toNat} {act : Action WorkerThreadsCount.toNat}
  {context : UInt32}

/-- `PostReceive` locks the table for a session that is in it. -/
def ReceivesFound {n : Nat} (s : AuthProcess n) : Action n → Prop
  | .network a => s.process.network.ReceivesFound a
  | _ => True

/-! ## One step -/

theorem input_of_handle {message : ActorMessage} {act : AuthService.Action}
    (h : handle HandleCts message = some act) : act.input = some message.kind := by
  cases message with
  | cts context messageType body =>
    simp only [handle] at h
    cases hrequest : HandleCts messageType body with
    | none => simp [hrequest] at h
    | some request =>
      cases request <;> simp only [hrequest, Option.some.injEq] at h <;> subst h <;> rfl
  | sessionDisconnected context =>
    obtain rfl := Option.some.inj h
    rfl

/-- What a step of the `Run` of `A_Auth` passes on is what `A_Auth` takes in. -/
theorem takes_of_runAuth {a : DynamicActor ActorMessage} {auth auth' : AuthService}
    (h : runAuth b HandleCts a auth = some auth') :
    (auth' = auth ∨ ∃ act, auth.step b act = some auth') ∧
      ∃ events, AuthService.Takes auth (a.handed.map ActorMessage.kind) auth' events := by
  have hstay (hpc : a.handed = none) : AuthService.Takes auth (a.handed.map ActorMessage.kind) auth [] :=
    .of_quiet rfl (by simp [hpc]) fun _ h => h
  cases hpc : a.pc with
  | looping index i size =>
    simp only [runAuth, hpc] at h
    cases hact : a.handed.bind (handle HandleCts) with
    | none =>
      simp only [hact, Option.some.injEq] at h
      subst h
      refine ⟨Or.inl rfl, [], .of_quiet rfl (fun context hkind => ?_) fun _ h => h⟩
      obtain ⟨message, hmessage, hkind⟩ := Option.map_eq_some_iff.mp hkind
      rw [hmessage, Option.bind_some] at hact
      cases message with
      | cts => cases hkind
      | sessionDisconnected => cases hact
    | some act =>
      simp only [hact] at h
      refine ⟨Or.inr ⟨act, h⟩, ?_⟩
      obtain ⟨message, hmessage, hhandle⟩ := Option.bind_eq_some_iff.mp hact
      rw [hmessage, Option.map_some, ← input_of_handle hhandle]
      exact AuthService.takes_of_step h
  | clearing =>
    simp only [runAuth, hpc] at h
    refine ⟨Or.inr ⟨.tickBegin, h⟩, ?_⟩
    have hhanded : a.handed = none := by simp [DynamicActor.handed, hpc]
    rw [hhanded]
    exact AuthService.takes_of_step h
  | tick =>
    simp only [runAuth, hpc] at h
    split_ifs at h
    obtain rfl := Option.some.inj h
    exact ⟨Or.inl rfl, [], hstay (by simp [DynamicActor.handed, hpc])⟩
  | idle | entered | swapping | beforeLoop =>
    simp only [runAuth, hpc, Option.some.injEq] at h
    subst h
    exact ⟨Or.inl rfl, [], hstay (by simp [DynamicActor.handed, hpc])⟩

/-- The step is one of `AuthBackgroundThreadBody`. -/
def Action.isBackground {n : Nat} : Action n → Prop
  | .backgroundTake | .backgroundExecute _ | .backgroundPush => True
  | _ => False

theorem inCalls_eq_false {n : Nat} {s : AuthProcess n} {u : Fin n} (h : ¬ s.inCalls u = true) :
    s.calls = [] ∧ s.process.network.pc u = .idle := by
  simp only [inCalls, Bool.or_eq_true, Bool.not_eq_true', not_or, Bool.not_eq_false,
    List.isEmpty_iff] at h
  refine h.imp_right fun hidle => ?_
  cases hpc : s.process.network.pc u with
  | idle => rfl
  | _ => simp [hpc, NetworkServer.Pc.isIdle] at hidle

/-- What a step can do. -/
inductive Moves (b : Bcrypt) (HandleCts : UInt16 → Bytes → Option AuthRequest)
    (s : AuthProcess WorkerThreadsCount.toNat) :
    Action WorkerThreadsCount.toNat → AuthProcess WorkerThreadsCount.toNat → Prop
  | network (a process)
      (hstart : ∀ t handler, a = .start t handler →
        WorkerThreadsCount.toNat ≤ t ∧ handler.ofCompletionPort = true)
      (hserve : s.process.serve registry a = some process) :
      Moves b HandleCts s (.network a) ⟨process, s.auth, s.calls⟩
  | call (u a response calls process)
      (hrun : s.process.actors.inRun registry u Startup.authName = some a)
      (hcalls : s.calls = response :: calls)
      (hserve : s.process.serve registry (.start u response.call) = some process) :
      Moves b HandleCts s (.call u) ⟨process, s.auth, calls⟩
  | main (process) (hprocess : s.process.step registry WorkerThreadsCount .main = some process) :
      Moves b HandleCts s .main ⟨process, s.auth, s.calls⟩
  | outside (u process) (hrun : s.process.actors.inRun registry u Startup.authName = none)
      (hprocess : s.process.step registry WorkerThreadsCount (.worker u) = some process) :
      Moves b HandleCts s (.worker u) ⟨process, s.auth, s.calls⟩
  | inside (u a auth process) (hrun : s.process.actors.inRun registry u Startup.authName = some a)
      (hdone : s.calls = [] ∧ s.process.network.pc u = .idle)
      (hauth : runAuth b HandleCts a s.auth = some auth)
      (hprocess : s.process.step registry WorkerThreadsCount (.worker u) = some process) :
      Moves b HandleCts s (.worker u) ⟨process, auth, s.calls ++ responsesSince s.auth auth⟩
  | tickIterate (u a inserted auth)
      (hrun : s.process.actors.inRun registry u Startup.authName = some a)
      (hdone : s.calls = [] ∧ s.process.network.pc u = .idle)
      (hauth : s.auth.step b (.tickIterate inserted) = some auth) :
      Moves b HandleCts s (.tickIterate u inserted) (s.setAuth auth)
  | background (act act' auth) (hact : act.isBackground) (hbackground : act'.isBackground)
      (hauth : s.auth.step b act' = some auth) : Moves b HandleCts s act (s.setAuth auth)

theorem moves_of_step (hstep : step b HandleCts s act = some s') : Moves b HandleCts s act s' := by
  cases act with
  | network a =>
    cases a with
    | start t handler =>
      simp only [step] at hstep
      split_ifs at hstep with hstart
      obtain ⟨process, hserve, rfl⟩ := Option.map_eq_some_iff.mp hstep
      refine .network _ _ (fun u other heq => ?_) hserve
      obtain ⟨rfl, rfl⟩ := NetworkServer.Action.start.inj heq
      exact hstart
    | run t answers =>
      obtain ⟨process, hserve, rfl⟩ := Option.map_eq_some_iff.mp hstep
      exact .network _ _ (fun _ _ heq => NetworkServer.Action.noConfusion heq) hserve
  | main =>
    obtain ⟨process, hprocess, rfl⟩ := Option.map_eq_some_iff.mp hstep
    exact .main _ hprocess
  | worker u =>
    simp only [step] at hstep
    cases hrun : s.process.actors.inRun registry u Startup.authName with
    | none =>
      simp only [hrun] at hstep
      obtain ⟨process, hprocess, rfl⟩ := Option.map_eq_some_iff.mp hstep
      exact .outside _ _ hrun hprocess
    | some a =>
      simp only [hrun] at hstep
      split_ifs at hstep with hcalls
      obtain ⟨auth, hauth, hstep⟩ := Option.bind_eq_some_iff.mp hstep
      obtain ⟨process, hprocess, rfl⟩ := Option.map_eq_some_iff.mp hstep
      exact .inside _ _ _ _ hrun (inCalls_eq_false hcalls) hauth hprocess
  | call u =>
    simp only [step] at hstep
    cases hrun : s.process.actors.inRun registry u Startup.authName with
    | none => simp [hrun] at hstep
    | some a =>
      cases hcalls : s.calls with
      | nil => simp [hrun, hcalls] at hstep
      | cons response calls =>
        simp only [hrun, hcalls] at hstep
        obtain ⟨process, hserve, rfl⟩ := Option.map_eq_some_iff.mp hstep
        exact .call _ _ _ _ _ hrun hcalls hserve
  | tickIterate u inserted =>
    simp only [step] at hstep
    cases hrun : s.process.actors.inRun registry u Startup.authName with
    | none => simp [hrun] at hstep
    | some a =>
      simp only [hrun] at hstep
      split_ifs at hstep with hcalls
      obtain ⟨auth, hauth, rfl⟩ := Option.map_eq_some_iff.mp hstep
      exact .tickIterate _ _ _ _ hrun (inCalls_eq_false hcalls) hauth
  | backgroundTake =>
    obtain ⟨auth, hauth, rfl⟩ := Option.map_eq_some_iff.mp hstep
    exact .background _ .backgroundTake _ trivial trivial hauth
  | backgroundExecute salt =>
    obtain ⟨auth, hauth, rfl⟩ := Option.map_eq_some_iff.mp hstep
    exact .background _ (.backgroundExecute salt) _ trivial trivial hauth
  | backgroundPush =>
    obtain ⟨auth, hauth, rfl⟩ := Option.map_eq_some_iff.mp hstep
    exact .background _ .backgroundPush _ trivial trivial hauth

/-- What `A_Auth` has been passed, as far as it matters in the following. -/
def taken {n : Nat} (s : AuthProcess n) : List (UInt32 × Bool) :=
  (s.process.actors.actor Startup.authName).delivered.map fun d => d.message.kind

/-- What a step does: to the server, and behind the mailbox of `A_Auth`, which takes in what it is
passed. -/
structure Steps (b : Bcrypt) (s : AuthProcess WorkerThreadsCount.toNat)
    (act : Action WorkerThreadsCount.toNat) (s' : AuthProcess WorkerThreadsCount.toNat) : Prop where
  process : s'.process = s.process ∨ ∃ act', (s.ReceivesFound act → s.process.ReceivesFound act') ∧
    s.process.step registry WorkerThreadsCount act' = some s'.process
  auth : s'.auth = s.auth ∨ ∃ act', s.auth.step b act' = some s'.auth
  takes : ∃ message events, s'.taken = s.taken ++ Option.toList message ∧
    AuthService.Takes s.auth message s'.auth events

theorem steps_process {process : ServerProcess WorkerThreadsCount.toNat} {calls : List Response}
    (act' : ServerProcess.Action WorkerThreadsCount.toNat)
    (hfound : s.ReceivesFound act → s.process.ReceivesFound act')
    (hstep : s.process.step registry WorkerThreadsCount act' = some process)
    (hdelivered : (process.actors.actor Startup.authName).delivered =
      (s.process.actors.actor Startup.authName).delivered) :
    Steps b s act ⟨process, s.auth, calls⟩ := by
  refine ⟨Or.inr ⟨act', hfound, hstep⟩, Or.inl rfl, none, [], ?_, ?_⟩
  · simp only [taken, hdelivered, Option.toList_none, List.append_nil]
  · exact .of_quiet rfl AuthService.none_ne_notice fun _ h => h

theorem steps_network {a : NetworkServer.Action} {process : ServerProcess WorkerThreadsCount.toNat}
    {calls : List Response} (hfound : s.ReceivesFound act → s.process.network.ReceivesFound a)
    (hserve : s.process.serve registry a = some process) : Steps b s act ⟨process, s.auth, calls⟩ :=
  steps_process (.network a) hfound hserve (ServerProcess.delivered_serve hserve _)

/-- A step behind the mailbox that handles no message. -/
theorem steps_auth {act' : AuthService.Action} {auth : AuthService} (hquiet : act'.input = none)
    (hauth : s.auth.step b act' = some auth) : Steps b s act (s.setAuth auth) := by
  obtain ⟨events, htakes⟩ := AuthService.takes_of_step hauth
  exact ⟨Or.inl rfl, Or.inr ⟨act', hauth⟩, none, events, (List.append_nil _).symm, hquiet ▸ htakes⟩

/-- What `A_Auth` takes in is what the step of its runner passes on. -/
theorem taken_worker {u : Fin WorkerThreadsCount.toNat}
    {process : ServerProcess WorkerThreadsCount.toNat}
    (h : s.process.step registry WorkerThreadsCount (.worker u) = some process) :
    (process.actors.actor Startup.authName).delivered.map (fun d => d.message.kind) =
      s.taken ++ (((s.process.actors.inRun registry u Startup.authName).bind
        DynamicActor.handed).map ActorMessage.kind).toList := by
  obtain ⟨actors, hactors, rfl⟩ := Option.map_eq_some_iff.mp h
  have hdelivered := congrArg (List.map ActorMessage.kind)
    (ActorSystem.delivered_stepWorker hactors Startup.authName)
  rw [List.map_append, List.map_map, List.map_map] at hdelivered
  rw [Option.toList_map]
  exact hdelivered

theorem steps_of_step (hstep : step b HandleCts s act = some s') : Steps b s act s' := by
  cases moves_of_step hstep with
  | network a process hstart hserve => exact steps_network id hserve
  | call u a response calls process hrun hcalls hserve =>
    have hfound : s.process.network.ReceivesFound (.start u response.call) := trivial
    exact steps_network (fun _ => hfound) hserve
  | main process hprocess =>
    refine steps_process .main (fun _ => trivial) hprocess ?_
    obtain ⟨actors, hactors, rfl⟩ := Option.map_eq_some_iff.mp hprocess
    obtain ⟨server, -, rfl⟩ := Option.map_eq_some_iff.mp hactors
    rfl
  | outside u process hrun hprocess =>
    have htaken := taken_worker hprocess
    rw [hrun] at htaken
    exact ⟨Or.inr ⟨.worker u, fun _ => trivial, hprocess⟩, Or.inl rfl, none, [], htaken,
      .of_quiet rfl AuthService.none_ne_notice fun _ h => h⟩
  | inside u a auth process hrun hdone hauth hprocess =>
    obtain ⟨hauth', events, htakes⟩ := takes_of_runAuth hauth
    have htaken := taken_worker hprocess
    rw [hrun] at htaken
    exact ⟨Or.inr ⟨.worker u, fun _ => trivial, hprocess⟩, hauth', _, events, htaken, htakes⟩
  | tickIterate u a inserted auth hrun hdone hauth => exact steps_auth rfl hauth
  | background act act' auth hact hbackground hauth =>
    exact steps_auth (AuthService.input_of_isBackground hbackground) hauth

/-! ## Runs -/

/-- The invariant: `A_Auth` has taken in some of the requests that it has been passed, and all of the
notices, in order. -/
structure Inv (b : Bcrypt) (cts sessionDisconnected : UInt32)
    (s : AuthProcess WorkerThreadsCount.toNat) : Prop where
  process : ServerProcess.Inv [Startup.authName]
    (fun _ index => decide (index = cts) || decide (index = sessionDisconnected))
    (typeIndex cts sessionDisconnected) s.process
  auth : Reachable (AuthService.step b) .initial s.auth
  inputs : (s.auth.world.history.filterMap AuthService.input).Sublist s.taken
  notices : ∀ context, (context, true) ∈ s.taken → .disconnected context ∈ s.auth.world.history

theorem inv_init : Inv b cts sessionDisconnected (init WorkerThreadsCount cts sessionDisconnected) where
  process := ServerProcess.inv_init
  auth := .refl _
  inputs := List.nil_sublist _
  notices := nofun

theorem inv_step (hworkers : 0 < WorkerThreadsCount.toNat)
    (hsize : 1 + WorkerThreadsCount.toNat ≤ 2 ^ 32) (h : Inv b cts sessionDisconnected s)
    (hok : s.ReceivesFound act) (hstep : step b HandleCts s act = some s') :
    Inv b cts sessionDisconnected s' := by
  obtain ⟨hprocess, hauth, message, events, htaken, htakes⟩ := steps_of_step hstep
  refine ⟨?_, ?_, ?_, fun context hmem => ?_⟩
  · obtain heq | ⟨act', hfound, hstep'⟩ := hprocess
    · exact heq ▸ h.process
    · exact ServerProcess.inv_step hworkers hsize (List.nodup_singleton _) h.process (hfound hok) hstep'
  · obtain heq | ⟨act', hstep'⟩ := hauth
    · exact heq ▸ h.auth
    · exact h.auth.next hstep'
  · rw [htakes.history, List.filterMap_append, htaken]
    exact h.inputs.append htakes.inputs
  · rw [htaken, List.mem_append] at hmem
    rw [htakes.history, List.mem_append]
    refine hmem.imp (h.notices context) fun hmessage => ?_
    rw [htakes.notice context (Option.mem_toList.mp hmessage)]
    exact List.mem_singleton_self _

/-- Of what `A_Auth` has been passed about a context, only the last can be the notice. -/
theorem Inv.pairwise (h : Inv b cts sessionDisconnected s) (hworkers : 0 < WorkerThreadsCount.toNat)
    (hsize : 1 + WorkerThreadsCount.toNat ≤ 2 ^ 32) (hcount : s.process.network.created ≤ 2 ^ 32)
    (context : UInt32) :
    (s.taken.filter (·.1 = context)).Pairwise fun input _ => input ≠ (context, true) := by
  obtain ⟨requests, notice, heard, hrequests, hnotice⟩ :=
    (h.process.heard (List.nodup_singleton _) hworkers hsize hcount context).1 Startup.authName
  have hkind : s.taken.filter (·.1 = context) =
      (s.process.heard Startup.authName context).map ActorMessage.kind := by
    simp only [taken, ServerProcess.heard, List.filter_map, List.map_map, Function.comp_def,
      ActorMessage.kind_fst]
  rw [hkind, heard, List.map_append, List.pairwise_append]
  have hkinds : ∀ input ∈ requests.map ActorMessage.kind, input ≠ (context, true) := by
    intro input hinput heq
    obtain ⟨message, hmessage, rfl⟩ := List.mem_map.mp hinput
    obtain ⟨messageType, body, rfl⟩ := hrequests message hmessage
    cases heq
  refine ⟨List.pairwise_of_forall_mem_list fun input hinput _ _ => hkinds input hinput, ?_,
    fun input hinput _ _ => hkinds input hinput⟩
  obtain rfl | rfl := hnotice
  · exact List.Pairwise.nil
  · exact List.pairwise_singleton _ _

/-- After the notice of a context, `A_Auth` takes in nothing of it. -/
theorem Inv.nothing_after_notice (h : Inv b cts sessionDisconnected s)
    (hworkers : 0 < WorkerThreadsCount.toNat) (hsize : 1 + WorkerThreadsCount.toNat ≤ 2 ^ 32)
    (hcount : s.process.network.created ≤ 2 ^ 32) {before after : List A_Auth.Event}
    (hhistory : s.auth.world.history = before ++ .disconnected context :: after) (notice : Bool) :
    (context, notice) ∉ after.filterMap AuthService.input := by
  intro hmem
  have hpairwise := (h.pairwise hworkers hsize hcount context).sublist
    (h.inputs.filter (·.1 = context))
  rw [hhistory, List.filterMap_append, List.filter_append, List.pairwise_append] at hpairwise
  have htail := hpairwise.2.1
  have hinput : AuthService.input (.disconnected context) = some (context, true) := rfl
  rw [List.filterMap_cons_some hinput, List.filter_cons_of_pos (by simp)] at htail
  refine (List.pairwise_cons.mp htail).1 (context, notice) ?_ rfl
  exact List.mem_filter.mpr ⟨hmem, by simp⟩

/-- A context that is offline and has no job under way. -/
def Quiet {n : Nat} (s : AuthProcess n) (context : UInt32) : Prop :=
  s.auth.world.auth.contextIdMap context = none ∧ context ∉ AuthService.busy s.auth.world.auth

/-- A context stays quiet as long as no request of it is accepted. -/
theorem quiet_of_run {acts : List (Action WorkerThreadsCount.toNat)}
    (hrun : run (step b HandleCts) s acts = some t) :
    ∃ events, t.auth.world.history = s.auth.world.history ++ events ∧
      ((context, false) ∉ events.filterMap AuthService.input → s.Quiet context → t.Quiet context) := by
  induction acts generalizing s with
  | nil =>
    obtain rfl := Option.some.inj hrun
    exact ⟨[], (List.append_nil _).symm, fun _ hquiet => hquiet⟩
  | cons act acts ih =>
    obtain ⟨s', hstep, hrest⟩ := run_cons_eq_some.mp hrun
    obtain ⟨-, hauth, message, first, -, htakes⟩ := steps_of_step hstep
    obtain ⟨events, hhistory, hkeeps⟩ := ih hrest
    refine ⟨first ++ events, by rw [hhistory, htakes.history, List.append_assoc], ?_⟩
    rintro hnone ⟨hoffline, hbusy⟩
    rw [List.filterMap_append, List.mem_append, not_or] at hnone
    refine hkeeps hnone.2 ⟨?_, fun hmem => ?_⟩
    · obtain heq | ⟨act', hstep'⟩ := hauth
      · rw [heq]
        exact hoffline
      · refine Option.eq_none_iff_forall_ne_some.mpr fun id honline => ?_
        obtain hold | hmem := AuthService.online_of_step hstep' honline
        · cases hoffline.symm.trans hold
        · exact hbusy hmem
    · exact (htakes.busy context hmem).elim hbusy hnone.1

section Theorems

variable {acts acts' : List (Action WorkerThreadsCount.toNat)}

theorem inv_of_run (hworkers : 0 < WorkerThreadsCount.toNat)
    (hsize : 1 + WorkerThreadsCount.toNat ≤ 2 ^ 32)
    (hrun : run (step b HandleCts) (init WorkerThreadsCount cts sessionDisconnected) acts = some s)
    (hfound : Meets (step b HandleCts) ReceivesFound
      (init WorkerThreadsCount cts sessionDisconnected) acts) : Inv b cts sessionDisconnected s :=
  run_invariant (fun _ _ _ h hok hstep => inv_step hworkers hsize h hok hstep) inv_init hfound hrun

/-- **A session that is gone is offline for good.** In every run of the server with `A_Auth`, its
background thread and its database, with at most 2³² connections and where `PostReceive` locks the table
for no erased session: if `A_Auth` has handled the notice of a context, then it handles no other, and
accepts no request of the context any more; and once the context is offline and has no job under way, it
is offline in every later state. What happens behind the mailbox is a run of `A_Auth` with its
database. -/
theorem gone_offline_for_good (hworkers : 0 < WorkerThreadsCount.toNat)
    (hsize : 1 + WorkerThreadsCount.toNat ≤ 2 ^ 32)
    (hrun : run (step b HandleCts) (init WorkerThreadsCount cts sessionDisconnected) acts = some s)
    (hrun' : run (step b HandleCts) s acts' = some t)
    (hfound : Meets (step b HandleCts) ReceivesFound
      (init WorkerThreadsCount cts sessionDisconnected) (acts ++ acts'))
    (hcount : t.process.network.created ≤ 2 ^ 32)
    (hgone : .disconnected context ∈ s.auth.world.history) :
    Reachable (AuthService.step b) .initial t.auth ∧
    (∃ before after, t.auth.world.history = before ++ .disconnected context :: after ∧
      .disconnected context ∉ before ++ after ∧
      ∀ job, .accepted job ∈ after → job.context ≠ context) ∧
    (s.Quiet context → t.Quiet context) := by
  have ht := inv_of_run hworkers hsize (run_append hrun hrun') hfound
  obtain ⟨before, after, hhistory⟩ := List.append_of_mem hgone
  obtain ⟨events, hgrown, hkeeps⟩ := quiet_of_run hrun'
  have hsplit : t.auth.world.history = before ++ .disconnected context :: (after ++ events) := by
    rw [hgrown, hhistory, List.append_assoc]
    rfl
  have hafter := ht.nothing_after_notice hworkers hsize hcount hsplit
  refine ⟨ht.auth, ⟨before, after ++ events, hsplit, fun hmem => ?_, fun job hjob heq => ?_⟩, ?_⟩
  · obtain hmem | hmem := List.mem_append.mp hmem
    · obtain ⟨first, rest, rfl⟩ := List.append_of_mem hmem
      rw [List.append_assoc, List.cons_append] at hsplit
      refine ht.nothing_after_notice hworkers hsize hcount hsplit true ?_
      refine List.mem_filterMap.mpr ⟨.disconnected context, ?_, rfl⟩
      exact List.mem_append_right _ (List.mem_cons_self ..)
    · exact hafter true (List.mem_filterMap.mpr ⟨_, hmem, rfl⟩)
  · exact hafter false (List.mem_filterMap.mpr ⟨_, hjob, by rw [AuthService.input, heq]⟩)
  · refine hkeeps fun hmem => hafter false ?_
    rw [List.filterMap_append]
    exact List.mem_append_right _ hmem

theorem created_le (h : Reachable (step b HandleCts) s t) :
    s.process.network.created ≤ t.process.network.created := by
  refine h.invariant (P := fun t => s.process.network.created ≤ t.process.network.created)
    (fun t act t' hle hstep => hle.trans ?_) (Nat.le_refl _)
  obtain heq | ⟨act', -, hstep'⟩ := (steps_of_step hstep).process
  · rw [heq]
  · exact ServerProcess.created_le (.next (.refl _) hstep')

theorem reachable_actors (h : Reachable (step b HandleCts) s t) :
    Reachable (ActorSystem.step registry WorkerThreadsCount) s.process.actors t.process.actors := by
  refine h.map (fun s => s.process.actors) fun s act s' hstep => ?_
  obtain heq | ⟨act', -, hstep'⟩ := (steps_of_step hstep).process
  · rw [heq]
    exact .refl _
  · exact ServerProcess.reachable_actors_step hstep'

/-- The notice of a session that has been accepted and erased, and
that no thread has left to push, is handled by the end of the next round. -/
theorem Inv.notice_handled (hs : Inv b cts sessionDisconnected s) (ht : Inv b cts sessionDisconnected t)
    (hworkers : 0 < WorkerThreadsCount.toNat) (hsize : 1 + WorkerThreadsCount.toNat ≤ 2 ^ 32)
    (hreach : Reachable (step b HandleCts) s t) (hcount : t.process.network.created ≤ 2 ^ 32) {o : Nat}
    (ho : o < s.process.network.created) (htable : ¬ s.process.network.InTable o)
    (haccepts : ∀ u, (s.process.network.pc u).accepts ≠ some o)
    (hnotifies : ∀ u, (s.process.network.pc u).notifies ≠ some (NetworkServer.contextOf o))
    (hover : s.process.actors.server.rounds.length + 1 < t.process.actors.server.rounds.length ∨
      (s.process.actors.server.rounds.length < t.process.actors.server.rounds.length ∧
        t.process.actors.server.main ≠ .wait)) :
    .disconnected (NetworkServer.contextOf o) ∈ t.auth.world.history := by
  obtain ⟨name, hname, hmem⟩ := hs.process.exists_heard ht.process (List.nodup_singleton _) hworkers
    hsize (reachable_actors hreach) ((created_le hreach).trans hcount) ho htable haccepts hnotifies
    hover
  obtain rfl := List.mem_singleton.mp hname
  obtain ⟨d, hd, hmessage⟩ := List.mem_map.mp (List.mem_of_mem_filter hmem)
  refine ht.notices _ (List.mem_map.mpr ⟨d, hd, ?_⟩)
  rw [hmessage]
  rfl

/-- **A session that is gone has been handled by the end of the next round.** Where, in state `s`, a
session has been accepted and erased and no thread has its notice left to push, and where a round has
begun since and is over in state `t`, or two have begun: `A_Auth` has handled the notice. -/
theorem disconnect_handled_within_next_round (hworkers : 0 < WorkerThreadsCount.toNat)
    (hsize : 1 + WorkerThreadsCount.toNat ≤ 2 ^ 32)
    (hrun : run (step b HandleCts) (init WorkerThreadsCount cts sessionDisconnected) acts = some s)
    (hrun' : run (step b HandleCts) s acts' = some t)
    (hfound : Meets (step b HandleCts) ReceivesFound
      (init WorkerThreadsCount cts sessionDisconnected) (acts ++ acts'))
    (hcount : t.process.network.created ≤ 2 ^ 32) {o : Nat} (ho : o < s.process.network.created)
    (htable : ¬ s.process.network.InTable o)
    (haccepts : ∀ u, (s.process.network.pc u).accepts ≠ some o)
    (hnotifies : ∀ u, (s.process.network.pc u).notifies ≠ some (NetworkServer.contextOf o))
    (hover : s.process.actors.server.rounds.length + 1 < t.process.actors.server.rounds.length ∨
      (s.process.actors.server.rounds.length < t.process.actors.server.rounds.length ∧
        t.process.actors.server.main ≠ .wait)) :
    .disconnected (NetworkServer.contextOf o) ∈ t.auth.world.history := by
  have hs := inv_of_run hworkers hsize hrun hfound.of_append
  have ht := inv_of_run hworkers hsize (run_append hrun hrun') hfound
  exact hs.notice_handled ht hworkers hsize ⟨acts', hrun'⟩ hcount ho htable haccepts hnotifies hover

end Theorems

instance {n : Nat} (s : AuthProcess n) (act : Action n) : Decidable (s.ReceivesFound act) := by
  unfold ReceivesFound
  split <;> infer_instance

/-- A server with two workers. -/
def authServer : AuthProcess (UInt32.toNat 2) := init 2 0 1

/-- Every message is a login. -/
def logins (_ : UInt16) (body : Bytes) : Option AuthRequest := some (.login body body)

/-- A client connects, sends a request and disconnects. -/
def loginAndDisconnect : List (Action (UInt32.toNat 2)) :=
  ServerProcess.requestAndDisconnect.map .network

/-- The workers begin a round, and the first one gets into the `Run` of `A_Auth`. -/
def roundBegins : List (Action (UInt32.toNat 2)) :=
  let first := Action.worker ⟨0, Nat.two_pos⟩
  let second := Action.worker ⟨1, Nat.one_lt_two⟩
  [.main, .main, .main] ++ (List.replicate 4 [first, second]).flatten

/-- The workers run one round, in which the request is answered. -/
def oneRound : List (Action (UInt32.toNat 2)) :=
  roundBegins ++ List.replicate 7 (.worker ⟨0, Nat.two_pos⟩) ++
    [.backgroundTake, .backgroundExecute [], .backgroundPush, .tickIterate ⟨0, Nat.two_pos⟩ none,
      .call ⟨0, Nat.two_pos⟩, .network (.run 0 {}), .network (.run 0 {})] ++
    List.replicate 5 (.worker ⟨0, Nat.two_pos⟩) ++ [.main]

theorem receivesFound_loginAndDisconnect : Meets (step A_Auth.plainBcrypt logins) ReceivesFound
    authServer (loginAndDisconnect ++ oneRound ++ [.main]) := by
  decide +kernel

theorem gone_offline_for_good_loginAndDisconnect :
    ∃ s t, run (step A_Auth.plainBcrypt logins) authServer (loginAndDisconnect ++ oneRound) = some s ∧
      run (step A_Auth.plainBcrypt logins) s [.main] = some t ∧
      s.auth.world.history.length = 3 ∧ s.Quiet 0 ∧ t.Quiet 0 := by
  obtain ⟨s, hrun, hlength, hgone, hoffline, hbusy, t, hrun', hcreated⟩ : ∃ s,
      run (step A_Auth.plainBcrypt logins) authServer (loginAndDisconnect ++ oneRound) = some s ∧
      s.auth.world.history.length = 3 ∧ .disconnected 0 ∈ s.auth.world.history ∧
      s.auth.world.auth.contextIdMap 0 = none ∧ AuthService.busy s.auth.world.auth = [] ∧
      ∃ t, run (step A_Auth.plainBcrypt logins) s [.main] = some t ∧ t.process.network.created = 1 :=
    ⟨_, rfl, rfl, by decide, rfl, rfl, _, rfl, rfl⟩
  have hquiet : s.Quiet 0 := ⟨hoffline, by rw [hbusy]; exact List.not_mem_nil⟩
  refine ⟨s, t, hrun, hrun', hlength, hquiet, ?_⟩
  exact (gone_offline_for_good (by decide) (by decide)
    (show run _ (init 2 0 1) _ = some s from hrun) hrun' receivesFound_loginAndDisconnect
    (by rw [hcreated]; decide) hgone).2.2 hquiet

theorem disconnect_handled_within_next_round_loginAndDisconnect :
    ∃ s t, run (step A_Auth.plainBcrypt logins) authServer loginAndDisconnect = some s ∧
      run (step A_Auth.plainBcrypt logins) s oneRound = some t ∧ s.auth.world.history = [] ∧
      .disconnected 0 ∈ t.auth.world.history := by
  obtain ⟨s, hrun, hcreated, hidle, hsessions, hhistory, t, hrun', hcreated', hbegun, hmain⟩ : ∃ s,
      run (step A_Auth.plainBcrypt logins) authServer loginAndDisconnect = some s ∧
      s.process.network.created = 1 ∧ (∀ u, s.process.network.pc u = .idle) ∧
      s.process.network.sessions =
        Function.update (Function.update (fun _ => none) 0 (some 0)) 0 none ∧
      s.auth.world.history = [] ∧
      ∃ t, run (step A_Auth.plainBcrypt logins) s oneRound = some t ∧ t.process.network.created = 1 ∧
        s.process.actors.server.rounds.length < t.process.actors.server.rounds.length ∧
        t.process.actors.server.main ≠ .wait := by
    refine ⟨_, rfl, rfl, fun u => ?_, rfl, rfl, _, rfl, rfl, by decide, by decide⟩
    match u with
    | 0 | 1 | 2 | 3 | u + 4 => rfl
  have htable : ¬ s.process.network.InTable 0 := by
    rintro ⟨context, hcontext⟩
    rw [hsessions, Function.update_idem, Function.update_apply] at hcontext
    split_ifs at hcontext
  refine ⟨s, t, hrun, hrun', hhistory, ?_⟩
  exact disconnect_handled_within_next_round (o := 0) (by decide) (by decide)
    (show run _ (init 2 0 1) _ = some s from hrun) hrun' (by decide +kernel)
    (by rw [hcreated']; decide) (by rw [hcreated]; decide) htable
    (by simp [hidle, NetworkServer.Pc.accepts]) (by simp [hidle, NetworkServer.Pc.notifies])
    (Or.inr ⟨hbegun, hmain⟩)

end AuthProcess

end RatkiniaServer
