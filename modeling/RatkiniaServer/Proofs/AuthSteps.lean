import RatkiniaServer.Proofs.AuthProcess

/-!
# The steps of the server with `A_Auth`

What each step does to the jobs of `A_Auth`, to the loop of `Tick` and to the threads.
-/

namespace RatkiniaServer

open Transition

/-! ## The jobs -/

namespace AuthService

variable {b : Bcrypt} {s s' : AuthService} {act : Action}

/-- The number of the jobs that have been answered. -/
def answered (s : AuthService) : Nat := (A_Auth.answers s.world.history).length

/-- The actor's thread answers no job and leaves the jobs alone, but may add some to the background
queue. -/
structure Adds (s s' : AuthService) : Prop where
  answers : A_Auth.answers s'.world.history = A_Auth.answers s.world.history
  foreground : s'.world.auth.authJobForegroundQueue = s.world.auth.authJobForegroundQueue
  inHand : s'.world.auth.inHand = s.world.auth.inHand
  background : ∃ jobs, s'.world.auth.authJobBackgroundQueue =
    s.world.auth.authJobBackgroundQueue ++ jobs

theorem Adds.refl (s : AuthService) : Adds s s := ⟨rfl, rfl, rfl, [], (List.append_nil _).symm⟩

theorem adds_request (outcome : AuthJob ⊕ List Response) (accounts : List DbService_Account.Row)
    (logins : List LoginRequest) : Adds s ⟨s.world.request outcome, accounts, logins⟩ := by
  cases outcome with
  | inl job =>
    refine ⟨?_, rfl, rfl, [job], rfl⟩
    exact (A_Auth.answers_append _ _).trans (List.append_nil _)
  | inr responses =>
    refine ⟨?_, rfl, rfl, [], (List.append_nil _).symm⟩
    exact (A_Auth.answers_append _ _).trans (List.append_nil _)

/-- A handler runs outside of `Tick`. -/
theorem handler_spec {kind : UInt32 × Bool} (hinput : act.input = some kind)
    (hstep : s.step b act = some s') :
    Adds s s' ∧ s.world.auth.ticking = false ∧ s'.world.auth.ticking = false := by
  obtain ⟨w, hw, rfl⟩ := Option.map_eq_some_iff.mp hstep
  cases act with
  | registerRequest context account password =>
    simp only [Action.ofActor, A_Auth.step] at hw
    split_ifs at hw with hticking
    obtain rfl := Option.some.inj hw
    refine ⟨adds_request _ _ _, by simpa using hticking, ?_⟩
    cases A_Auth.onRegisterRequest context account password <;>
      simpa [A_Auth.World.request, A_Auth.pushJob] using hticking
  | loginRequest context account password =>
    simp only [Action.ofActor, A_Auth.step] at hw
    split_ifs at hw with hticking
    obtain rfl := Option.some.inj hw
    refine ⟨adds_request _ _ _, by simpa using hticking, ?_⟩
    cases s.world.auth.onLoginRequest _ context account password <;>
      simpa [A_Auth.World.request, A_Auth.pushJob] using hticking
  | sessionDisconnected context =>
    simp only [Action.ofActor, A_Auth.step] at hw
    split_ifs at hw with hticking
    obtain rfl := Option.some.inj hw
    have hanswers : A_Auth.answers (s.world.history ++ [.disconnected context]) =
        A_Auth.answers s.world.history := (A_Auth.answers_append _ _).trans (List.append_nil _)
    unfold A_Auth.handleSessionDisconnected
    cases s.world.auth.contextIdMap context <;>
      exact ⟨⟨hanswers, rfl, rfl, [], (List.append_nil _).symm⟩, by simpa using hticking,
        by simpa using hticking⟩
  | tickBegin | tickIterate | backgroundTake | backgroundExecute | backgroundPush => cases hinput

theorem tickBegin_spec (hstep : s.step b .tickBegin = some s') :
    Adds s s' ∧ s.world.auth.ticking = false ∧ s'.world.auth.ticking = true := by
  obtain ⟨w, hw, rfl⟩ := Option.map_eq_some_iff.mp hstep
  simp only [Action.ofActor, A_Auth.step] at hw
  split_ifs at hw with hticking
  obtain rfl := Option.some.inj hw
  exact ⟨⟨rfl, rfl, rfl, [], (List.append_nil _).symm⟩, by simpa using hticking, rfl⟩

/-- An iteration of the loop of `Tick` answers the job at the front, or ends the loop where there is
none. -/
theorem tickIterate_spec {inserted : Option UInt64} (hstep : s.step b (.tickIterate inserted) = some s') :
    s.world.auth.ticking = true ∧ s'.world.auth.inHand = s.world.auth.inHand ∧
      s'.world.auth.authJobBackgroundQueue = s.world.auth.authJobBackgroundQueue ∧
      ((s.world.auth.authJobForegroundQueue = [] ∧ s'.world.auth.authJobForegroundQueue = [] ∧
          s'.world.auth.ticking = false ∧ s'.answered = s.answered) ∨
        (∃ job, s.world.auth.authJobForegroundQueue = job :: s'.world.auth.authJobForegroundQueue) ∧
          s'.answered = s.answered + 1) := by
  obtain ⟨w, hw, rfl⟩ := Option.map_eq_some_iff.mp hstep
  simp only [Action.ofActor, A_Auth.step] at hw
  split_ifs at hw with hticking
  obtain rfl := Option.some.inj hw
  cases hq : s.world.auth.authJobForegroundQueue with
  | nil =>
    refine ⟨hticking, ?_⟩
    simp [A_Auth.World.tickIterate, hq, answered]
  | cons job rest =>
    set tryCreateAccount := fun account password =>
      (DbService_Account.tryCreateAccount s.accounts inserted account password).2
    obtain ⟨-, hforeground, hbackground, hinHand⟩ :=
      A_Auth.answer_spec { s.world.auth with authJobForegroundQueue := rest } tryCreateAccount job
    obtain ⟨-, -, hanswers⟩ := A_Auth.tickIterate_cons tryCreateAccount hq
    have hlength := congrArg List.length hanswers
    simp only [List.length_map, List.length_append, List.length_singleton] at hlength
    refine ⟨hticking, ?_, ?_, Or.inr ⟨⟨job, ?_⟩, hlength⟩⟩
    · simpa only [A_Auth.World.tickIterate, hq] using hinHand
    · simpa only [A_Auth.World.tickIterate, hq] using hbackground
    · simp only [A_Auth.World.tickIterate, hq, hforeground]

/-- The background thread takes a job, if there is one, executes it, or hands it on. -/
theorem background_spec (hbackground : act.isBackground) (hstep : s.step b act = some s') :
    s'.world.history = s.world.history ∧ s'.world.auth.ticking = s.world.auth.ticking ∧
      ((s.world.auth.inHand = .nothing ∧ s.world.auth.authJobBackgroundQueue = [] ∧
          s'.world.auth = s.world.auth) ∨
        (∃ job, s.world.auth.inHand = .nothing ∧ s'.world.auth.inHand = .taken job ∧
          s.world.auth.authJobBackgroundQueue = job :: s'.world.auth.authJobBackgroundQueue ∧
          s'.world.auth.authJobForegroundQueue = s.world.auth.authJobForegroundQueue) ∨
        (∃ job job', s.world.auth.inHand = .taken job ∧ s'.world.auth.inHand = .executed job' ∧
          s'.world.auth.authJobBackgroundQueue = s.world.auth.authJobBackgroundQueue ∧
          s'.world.auth.authJobForegroundQueue = s.world.auth.authJobForegroundQueue) ∨
        ∃ job, s.world.auth.inHand = .executed job ∧ s'.world.auth.inHand = .nothing ∧
          s'.world.auth.authJobBackgroundQueue = s.world.auth.authJobBackgroundQueue ∧
          s'.world.auth.authJobForegroundQueue = s.world.auth.authJobForegroundQueue ++ [job]) := by
  obtain ⟨w, hw, rfl⟩ := Option.map_eq_some_iff.mp hstep
  cases act with
  | backgroundTake =>
    simp only [Action.ofActor, A_Auth.step] at hw
    cases hhand : s.world.auth.inHand with
    | taken job => simp [hhand] at hw
    | executed job => simp [hhand] at hw
    | nothing =>
      simp only [hhand, Option.some.injEq] at hw
      subst hw
      cases hq : s.world.auth.authJobBackgroundQueue with
      | nil => simp [A_Auth.backgroundTake, hq]
      | cons job rest => simp [A_Auth.backgroundTake, hq]
  | backgroundExecute salt =>
    simp only [Action.ofActor, A_Auth.step] at hw
    cases hhand : s.world.auth.inHand with
    | nothing => simp [hhand] at hw
    | executed job => simp [hhand] at hw
    | taken job =>
      simp only [hhand] at hw
      obtain ⟨a, ha, rfl⟩ := Option.map_eq_some_iff.mp hw
      obtain ⟨executed, -, rfl⟩ := Option.map_eq_some_iff.mp ha
      simp
  | backgroundPush =>
    simp only [Action.ofActor, A_Auth.step] at hw
    cases hhand : s.world.auth.inHand with
    | nothing => simp [hhand] at hw
    | taken job => simp [hhand] at hw
    | executed job =>
      simp only [hhand, Option.some.injEq] at hw
      subst hw
      simp [A_Auth.backgroundPush]
  | registerRequest | loginRequest | sessionDisconnected | tickBegin | tickIterate =>
    exact hbackground.elim

end AuthService

/-! ## Where the threads are -/

/-- `Run` calls `Tick` after it has cleared the vector, and returns after that. -/
theorem DynamicActor.pc_run {M : Type*} {a a' : DynamicActor M} (hrun : a.run = some a') :
    (a'.pc = .tick ↔ a.pc = .clearing) ∧ (a'.pc = .idle ↔ a.pc = .tick) := by
  cases hpc : a.pc with
  | looping index i size =>
    simp only [DynamicActor.run, hpc] at hrun
    split_ifs at hrun
    · obtain rfl := Option.some.inj hrun
      simp
    · cases hget : (a.messageQueue index)[i]? with
      | none => simp [hget] at hrun
      | some message =>
        cases message with
        | none => simp [hget] at hrun
        | some m =>
          simp only [hget, Option.some.injEq] at hrun
          subst hrun
          simp
  | entered =>
    simp only [DynamicActor.run, hpc] at hrun
    split_ifs at hrun <;> obtain rfl := Option.some.inj hrun <;> simp
  | idle | swapping | beforeLoop | clearing | tick =>
    simp only [DynamicActor.run, hpc, Option.some.injEq] at hrun
    subst hrun
    simp

namespace ActorSystem

variable {n : Nat} {M : Type*} {r : ActorRegistry} {s s' : ActorSystem n M} {t u : Fin n}
  {name : String}

/-- A step of a worker leaves the others where they are. -/
theorem others_stepWorker (hstep : s.stepWorker r t = some s') (hu : u ≠ t) :
    s'.server.worker u = s.server.worker u ∧ s'.runPc u = s.runPc u := by
  obtain ⟨server, -, hserver, rfl⟩ | ⟨i, other, a, hpc, -, -, ⟨-, rfl⟩ | ⟨-, rfl⟩⟩ :=
    stepWorker_cases hstep
  · exact ⟨MainServer.worker_stepWorker hserver hu, rfl⟩
  · exact ⟨rfl, runPc_setActor_of_ne s other a hu⟩
  · exact ⟨MainServer.worker_stepWorker (MainServer.stepWorker_running r.actorRunQueue.length hpc) hu,
      runPc_setActor_of_ne s other a hu⟩

/-- A worker that is not in a `Run` may enter one. -/
theorem stepWorker_outside (hstep : s.stepWorker r t = some s')
    (hpc : ∀ i, (s.server.worker t).pc ≠ .running i) :
    MainServer.stepWorker r.actorRunQueue.length s.server t = some s'.server ∧
      s'.runPc = s.runPc := by
  obtain ⟨server, -, hserver, rfl⟩ | ⟨i, -, -, hrunning, -⟩ := stepWorker_cases hstep
  · exact ⟨hserver, rfl⟩
  · exact absurd hrunning (hpc i)

/-- A worker that is in a `Run` and not in `Tick` goes on in it. -/
theorem stepWorker_inside (hstep : s.stepWorker r t = some s') (h : s.Runs r t name)
    (hpc : s.runPc t ≠ .tick) :
    s'.server = s.server ∧ (s'.runPc t = .tick ↔ s.runPc t = .clearing) := by
  obtain ⟨i, hrunning, -⟩ := h
  obtain ⟨server, houtside, -⟩ | ⟨j, other, a, -, -, hrun, ⟨-, rfl⟩ | ⟨ha, rfl⟩⟩ :=
    stepWorker_cases hstep
  · exact absurd hrunning (houtside i)
  · have hnow : (s.setActor t other a).runPc t = a.pc := Function.update_self ..
    rw [hnow]
    exact ⟨rfl, (DynamicActor.pc_run hrun).1⟩
  · exact absurd ((DynamicActor.pc_run hrun).2.mp ha) hpc

end ActorSystem

/-- The network threads leave the server's threads where they are. -/
theorem ServerProcess.threads_serve {n : Nat} {r : ActorRegistry} {s s' : ServerProcess n}
    {a : NetworkServer.Action} (h : s.serve r a = some s') :
    s'.actors.server = s.actors.server ∧ s'.actors.runPc = s.actors.runPc := by
  unfold serve at h
  cases hrequest : s.network.pushRequest a with
  | none =>
    simp only [hrequest] at h
    obtain ⟨network, -, rfl⟩ := Option.map_eq_some_iff.mp h
    exact ⟨rfl, rfl⟩
  | some request =>
    simp only [hrequest] at h
    obtain ⟨network, -, rfl⟩ := Option.map_eq_some_iff.mp h
    unfold ActorSystem.tryPushMessageTo
    split_ifs <;> exact ⟨rfl, rfl⟩

namespace AuthProcess

variable {b : Bcrypt} {HandleCts : UInt16 → Bytes → Option AuthRequest}
  {WorkerThreadsCount cts sessionDisconnected : UInt32}

/-! ## The steps -/

/-- The step is one of the main thread or of a worker, which may be in the loop of `Tick` or in a call of
the network. -/
def Action.isThread {n : Nat} : Action n → Prop
  | .main | .worker _ | .call _ | .tickIterate _ _ => True
  | .network (.run t _) => t < n
  | _ => False

/-- The step is one in the network. -/
def Action.inNetwork {n : Nat} : Action n → Prop
  | .network _ | .call _ => True
  | _ => False

/-- What a step of the `Run` of `A_Auth` does to the jobs and to the loop of `Tick`. -/
theorem runAuth_spec {a : DynamicActor ActorMessage} {auth auth' : AuthService}
    (h : runAuth b HandleCts a auth = some auth') :
    AuthService.Adds auth auth' ∧
      ((a.pc = .clearing ∧ auth'.world.auth.ticking = true) ∨
        (a.pc ≠ .clearing ∧ auth'.world.auth.ticking = auth.world.auth.ticking)) ∧
      (a.pc = .tick → auth.world.auth.ticking = false) := by
  cases hpc : a.pc with
  | looping index i size =>
    simp only [runAuth, hpc] at h
    cases hact : a.handed.bind (handle HandleCts) with
    | none =>
      simp only [hact, Option.some.injEq] at h
      subst h
      exact ⟨.refl _, Or.inr ⟨by simp, rfl⟩, by simp⟩
    | some act =>
      simp only [hact] at h
      obtain ⟨message, -, hhandle⟩ := Option.bind_eq_some_iff.mp hact
      obtain ⟨hadds, hbefore, hafter⟩ := AuthService.handler_spec (input_of_handle hhandle) h
      exact ⟨hadds, Or.inr ⟨by simp, hafter.trans hbefore.symm⟩, by simp⟩
  | clearing =>
    simp only [runAuth, hpc] at h
    obtain ⟨hadds, -, hafter⟩ := AuthService.tickBegin_spec h
    exact ⟨hadds, Or.inl ⟨rfl, hafter⟩, by simp⟩
  | tick =>
    simp only [runAuth, hpc] at h
    split_ifs at h with hticking
    obtain rfl := Option.some.inj h
    exact ⟨.refl _, Or.inr ⟨by simp, rfl⟩, fun _ => by simpa using hticking⟩
  | idle | entered | swapping | beforeLoop =>
    simp only [runAuth, hpc, Option.some.injEq] at h
    subst h
    exact ⟨.refl _, Or.inr ⟨by simp, rfl⟩, by simp⟩

variable (b HandleCts) in
/-- Outside of the loop of `Tick`, the `Run` of `A_Auth` can go on. -/
theorem exists_runAuth (a : DynamicActor ActorMessage) {auth : AuthService}
    (h : auth.world.auth.ticking = false) : ∃ auth', runAuth b HandleCts a auth = some auth' := by
  rw [← Option.isSome_iff_exists]
  cases hpc : a.pc with
  | looping index i size =>
    cases hact : a.handed.bind (handle HandleCts) with
    | none => simp [runAuth, hpc, hact]
    | some act =>
      obtain ⟨message, -, hhandle⟩ := Option.bind_eq_some_iff.mp hact
      have hinput := input_of_handle hhandle
      cases act <;> simp_all [runAuth, AuthService.step, AuthService.Action.ofActor, A_Auth.step,
        AuthService.Action.input]
  | clearing =>
    simp [runAuth, hpc, AuthService.step, AuthService.Action.ofActor, A_Auth.step, h]
  | tick => simp [runAuth, hpc, h]
  | idle | entered | swapping | beforeLoop => simp [runAuth, hpc]

section Step

variable {s s' : AuthProcess WorkerThreadsCount.toNat} {act : Action WorkerThreadsCount.toNat}

/-- What a step does: one of the network threads may push a message, the main thread or a worker
steps, or the loop of `Tick` or the background thread goes on. -/
theorem step_cases (hstep : step b HandleCts s act = some s') :
    (act.inNetwork ∧ ¬ act.isBackground ∧ s'.auth = s.auth ∧
      s'.process.actors.server = s.process.actors.server ∧
      s'.process.actors.runPc = s.process.actors.runPc) ∨
    (act = .main ∧ s'.auth = s.auth ∧ s'.process.actors.runPc = s.process.actors.runPc ∧
      MainServer.stepMain WorkerThreadsCount s.process.actors.server =
        some s'.process.actors.server) ∨
    (∃ u, act = .worker u ∧ s.process.actors.stepWorker registry u = some s'.process.actors ∧
      ((s.process.actors.inRun registry u Startup.authName = none ∧ s'.auth = s.auth) ∨
        ∃ a, s.process.actors.inRun registry u Startup.authName = some a ∧
          runAuth b HandleCts a s.auth = some s'.auth)) ∨
    (s'.process = s.process ∧
      ((∃ u inserted, act = .tickIterate u inserted ∧
          s.auth.step b (.tickIterate inserted) = some s'.auth) ∨
        (¬ act.isThread ∧ act.isBackground ∧ ∃ act', AuthService.Action.isBackground act' ∧
          s.auth.step b act' = some s'.auth))) := by
  cases moves_of_step hstep with
  | network a process hstart hserve =>
    exact Or.inl ⟨trivial, id, rfl, ServerProcess.threads_serve hserve⟩
  | call u a response calls process hrun hcalls hserve =>
    exact Or.inl ⟨trivial, id, rfl, ServerProcess.threads_serve hserve⟩
  | main process hprocess =>
    obtain ⟨actors, hactors, rfl⟩ := Option.map_eq_some_iff.mp hprocess
    obtain ⟨server, hserver, rfl⟩ := Option.map_eq_some_iff.mp hactors
    exact Or.inr (Or.inl ⟨rfl, rfl, rfl, hserver⟩)
  | outside u process hrun hprocess =>
    obtain ⟨actors, hactors, rfl⟩ := Option.map_eq_some_iff.mp hprocess
    exact Or.inr (Or.inr (Or.inl ⟨u, rfl, hactors, Or.inl ⟨hrun, rfl⟩⟩))
  | inside u a auth process hrun hdone hauth hprocess =>
    obtain ⟨actors, hactors, rfl⟩ := Option.map_eq_some_iff.mp hprocess
    exact Or.inr (Or.inr (Or.inl ⟨u, rfl, hactors, Or.inr ⟨a, hrun, hauth⟩⟩))
  | tickIterate u a inserted auth hrun hdone hauth =>
    exact Or.inr (Or.inr (Or.inr ⟨rfl, Or.inl ⟨u, inserted, rfl, hauth⟩⟩))
  | background act act' auth hact hbackground hauth =>
    refine Or.inr (Or.inr (Or.inr ⟨rfl, Or.inr ⟨?_, hact, act', hbackground, hauth⟩⟩))
    cases act with
    | backgroundTake | backgroundExecute | backgroundPush => exact id
    | _ => exact hact.elim

end Step

end AuthProcess

end RatkiniaServer
