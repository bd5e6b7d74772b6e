import RatkiniaServer.Proofs.AuthCalls

/-!
# Requests are answered

In an infinite run of the server with `A_Auth` whose threads do not stop, round after round begins, and
in every round `Tick` answers the job at the front of the foreground queue, if there is one; the
background thread brings the jobs there. So every request that has become a job is answered, and every
notice is handled.
-/

namespace RatkiniaServer

open Transition Filter

namespace AuthProcess

variable {b : Bcrypt} {HandleCts : UInt16 → Bytes → Option AuthRequest}
  {WorkerThreadsCount cts sessionDisconnected : UInt32}

section Step

variable {s s' : AuthProcess WorkerThreadsCount.toNat} {act : Action WorkerThreadsCount.toNat}

/-! ## Rounds -/

/-- What is left to do outside of the network: the measure of the threads, and what is left of the loop of
`Tick`, if that is going on. Handlers may make the second part greater, but only where the first one gets
smaller. -/
def runLeft {n : Nat} (s : AuthProcess n) : (ℕ ×ₗ ℕ) ×ₗ ℕ :=
  toLex (s.process.actors.roundMeasure registry,
    (AuthService.underWay s.auth.world.auth).length + s.auth.world.auth.ticking.toNat)

/-- The measure of a round. `A_Auth` may ask for calls where it goes on. -/
def roundMeasure {n : Nat} (s : AuthProcess n) : ((ℕ ×ₗ ℕ) ×ₗ ℕ) ×ₗ (ℕ ×ₗ ℕ) :=
  toLex (s.runLeft, s.callsLeft)

theorem roundMeasure_lt_of_runLeft {n : Nat} {s s' : AuthProcess n} (h : s'.runLeft < s.runLeft) :
    s'.roundMeasure < s.roundMeasure :=
  Prod.Lex.toLex_lt_toLex.mpr (Or.inl h)

theorem runLeft_lt_of_actors {n : Nat} {s s' : AuthProcess n}
    (h : s'.process.actors.roundMeasure registry < s.process.actors.roundMeasure registry) :
    s'.runLeft < s.runLeft :=
  Prod.Lex.toLex_lt_toLex.mpr (Or.inl h)

/-- A step of a thread begins a round or leaves less to do; the other steps leave what is left to do as
it is. -/
theorem roundMeasure_step {messageHandlers : String → UInt32 → Bool}
    {typeIndex : ActorMessage → UInt32}
    (h : ActorSystem.Inv registry messageHandlers typeIndex s.process.actors)
    (hinv : MainServer.Inv registry.actorRunQueue.length s.process.actors.server) (hcalls : CallsInv s)
    (hstep : step b HandleCts s act = some s') :
    (¬ act.isThread ∧ s'.roundMeasure = s.roundMeasure) ∨
      s'.process.actors.server.rounds = [] :: s.process.actors.server.rounds ∨
      s'.roundMeasure < s.roundMeasure := by
  obtain ⟨hnetwork, -, hauth, hserver, hrunPc⟩ | ⟨-, -, hrunPc, hmain⟩ | ⟨u, -, hworker, -⟩ |
    ⟨hprocess, ⟨u, inserted, -, htick⟩ | ⟨hthread, hact, act', hbackground, hstep'⟩⟩ := step_cases hstep
  · have hsame : s'.runLeft = s.runLeft := by
      simp only [runLeft, ActorSystem.roundMeasure, ActorSystem.workLeft, hauth, hserver, hrunPc]
    refine (hcalls.callsLeft_network hnetwork hstep).imp ?_ fun hless => Or.inr ?_
    · exact And.imp_right fun heq => by rw [roundMeasure, hsame, heq, roundMeasure]
    · exact Prod.Lex.toLex_lt_toLex.mpr (Or.inr ⟨hsame, hless⟩)
  · refine Or.inr ((ActorSystem.roundMeasure_stepMain (r := registry) hmain).imp_right fun hless => ?_)
    refine roundMeasure_lt_of_runLeft (runLeft_lt_of_actors ?_)
    simpa only [ActorSystem.roundMeasure, ActorSystem.workLeft, hrunPc] using hless
  · refine Or.inr (Or.inr (roundMeasure_lt_of_runLeft (runLeft_lt_of_actors ?_)))
    exact h.roundMeasure_stepWorker hinv hworker
  · refine Or.inr (Or.inr (roundMeasure_lt_of_runLeft ?_))
    refine Prod.Lex.toLex_lt_toLex.mpr (Or.inr ⟨by rw [hprocess], ?_⟩)
    obtain ⟨hticking, hinHand, hback, ⟨hempty, hempty', hends, -⟩ | ⟨⟨job, hpops⟩, -⟩⟩ :=
      AuthService.tickIterate_spec htick
    · simp [AuthService.underWay, hticking, hends, hempty, hempty', hinHand, hback]
    · have hle := Bool.toNat_le s'.auth.world.auth.ticking
      simp only [AuthService.underWay, hticking, hpops, hinHand, hback, List.length_append,
        List.length_cons, Bool.toNat_true]
      omega
  · refine Or.inl ⟨hthread, ?_⟩
    obtain ⟨-, hticking, hjobs⟩ := AuthService.background_spec hbackground hstep'
    have hlength : (AuthService.underWay s'.auth.world.auth).length =
        (AuthService.underWay s.auth.world.auth).length := by
      obtain ⟨-, -, heq⟩ | ⟨job, hhand, hhand', hback, hfore⟩ | ⟨job, job', hhand, hhand', hback, hfore⟩ |
        ⟨job, hhand, hhand', hback, hfore⟩ := hjobs
      · rw [heq]
      · simp [AuthService.underWay, hhand, hhand', hback, hfore, InHand.jobs]
      · simp [AuthService.underWay, hhand, hhand', hback, hfore, InHand.jobs]
      · simp [AuthService.underWay, hhand, hhand', hback, hfore, InHand.jobs]
    have hleft : s'.runLeft = s.runLeft := by simp only [runLeft, hprocess, hticking, hlength]
    rw [roundMeasure, hleft, callsLeft_background hact hstep, roundMeasure]

/-! ## The loop of `Tick` -/

/-- The loop of `Tick` is that of the worker that is in the `Run` of `A_Auth`. -/
def TicksInRun {n : Nat} (s : AuthProcess n) : Prop :=
  s.auth.world.auth.ticking = true → ∃ u, s.AtRun u .tick

theorem ticksInRun_step
    (hinv : MainServer.Inv registry.actorRunQueue.length s.process.actors.server)
    (h : s.TicksInRun) (hstep : step b HandleCts s act = some s') : s'.TicksInRun := by
  intro hticking
  obtain ⟨-, -, hauth, hserver, hrunPc⟩ | ⟨-, hauth, hrunPc, hmain⟩ | ⟨u, -, hworker, hrun⟩ |
    ⟨hprocess, hauth⟩ := step_cases hstep
  · rw [hauth] at hticking
    obtain ⟨u, hu⟩ := h hticking
    exact ⟨u, hu.of_same (by rw [hserver]) (by rw [hrunPc])⟩
  · rw [hauth] at hticking
    obtain ⟨u, hu⟩ := h hticking
    obtain ⟨hsame, -⟩ := hinv.stepMain_cases hmain
    exact ⟨u, hu.of_same (by rw [hsame]) (by rw [hrunPc])⟩
  · obtain ⟨hnone, hauth⟩ | ⟨a, hrun, hauth⟩ := hrun
    · rw [hauth] at hticking
      obtain ⟨v, hv⟩ := h hticking
      have hvu : v ≠ u := by
        rintro rfl
        obtain ⟨i, hpc, -⟩ := hv.1
        exact not_running hinv hnone i hpc
      obtain ⟨hsame, hrunPc⟩ := ActorSystem.others_stepWorker hworker hvu
      exact ⟨v, hv.of_same hsame hrunPc⟩
    · obtain ⟨hruns, hpc⟩ := inRun_eq_some hrun
      obtain ⟨-, ⟨hclearing, -⟩ | ⟨-, hsame⟩, htick⟩ := runAuth_spec hauth
      · obtain ⟨hserver, hiff⟩ := ActorSystem.stepWorker_inside hworker hruns (by simp [hpc, hclearing])
        have hruns' : s'.RunsAuth u := hruns.of_same (by rw [hserver])
        exact ⟨u, hruns', hiff.mpr (hpc.trans hclearing)⟩
      · rw [hsame] at hticking
        obtain ⟨v, hv⟩ := h hticking
        obtain rfl := ActorSystem.Runs.alone hinv (List.nodup_singleton _) hruns hv.1
        exact absurd (htick (hpc.symm.trans hv.2)) (by simp [hticking])
  · have hbefore : s.auth.world.auth.ticking = true := by
      obtain ⟨u, inserted, -, htick⟩ | ⟨-, -, act', hbackground, hstep'⟩ := hauth
      · exact (AuthService.tickIterate_spec htick).1
      · exact (AuthService.background_spec hbackground hstep').2.1 ▸ hticking
    obtain ⟨u, hu⟩ := h hbefore
    exact ⟨u, hu.of_same (by rw [hprocess]) (by rw [hprocess])⟩

/-- A job waits in the foreground queue, and in the rounds after the first `k` the `Run` of `A_Auth` has
not left the loop of `Tick`. -/
structure Waits {n : Nat} (k : Nat) (s : AuthProcess n) : Prop where
  waiting : s.auth.world.auth.authJobForegroundQueue ≠ []
  inside : k < s.process.actors.server.rounds.length →
    ∀ u, s.AtRun u .tick → s.auth.world.auth.ticking = true
  unfinished : k < s.process.actors.server.rounds.length →
    .finished 0 ∉ MainServer.newest s.process.actors.server.rounds

/-- Where no job is answered, a job that waits goes on waiting. -/
theorem waits_step {k : Nat} (hsize : 1 + WorkerThreadsCount.toNat ≤ 2 ^ 32)
    (hsys : ActorSystem.Inv registry
      (fun _ index => decide (index = cts) || decide (index = sessionDisconnected))
      (typeIndex cts sessionDisconnected) s.process.actors)
    (hinv : MainServer.Inv registry.actorRunQueue.length s.process.actors.server)
    (h : s.Waits k) (hanswered : s'.auth.answered = s.auth.answered)
    (hstep : step b HandleCts s act = some s') : s'.Waits k := by
  obtain ⟨-, -, hauth, hserver, hrunPc⟩ | ⟨-, hauth, hrunPc, hmain⟩ | ⟨u, -, hworker, hrun⟩ |
    ⟨hprocess, hauth⟩ := step_cases hstep
  · refine ⟨hauth ▸ h.waiting, fun hk u hu => ?_, fun hk => ?_⟩
    · rw [hserver] at hk
      rw [hauth]
      exact h.inside hk u (hu.of_same (by rw [hserver]) (by rw [hrunPc]))
    · rw [hserver] at hk ⊢
      exact h.unfinished hk
  · obtain ⟨hsame, hrounds⟩ := hinv.stepMain_cases hmain
    refine ⟨hauth ▸ h.waiting, fun hk u hu => ?_, fun hk => ?_⟩
    · have hu' : s.AtRun u .tick := hu.of_same (by rw [hsame]) (by rw [hrunPc])
      obtain ⟨-, hidle⟩ | ⟨hlength, -⟩ := hrounds
      · obtain ⟨i, hpc, -⟩ := hu'.1
        exact absurd hpc (hidle.not_running u i)
      · rw [hauth]
        exact h.inside (hlength ▸ hk) u hu'
    · obtain ⟨hbegins, -⟩ | ⟨hlength, hfinished⟩ := hrounds
      · simp [hbegins, MainServer.newest]
      · rw [hfinished]
        exact h.unfinished (hlength ▸ hk)
  · obtain ⟨hnone, hauth⟩ | ⟨a, hrun, hauth⟩ := hrun
    · obtain ⟨hserver, hrunPc⟩ := ActorSystem.stepWorker_outside hworker (not_running hinv hnone)
      have hlength := hinv.rounds_stepWorker hsize hserver
      refine ⟨hauth ▸ h.waiting, fun hk v hv => ?_, fun hk => ?_⟩
      · have hvu : v ≠ u := by
          rintro rfl
          have hidle := hsys.idle v (not_running hinv hnone)
          rw [← hrunPc] at hidle
          cases hidle.symm.trans hv.2
        obtain ⟨hsame, hrunPc'⟩ := ActorSystem.others_stepWorker hworker hvu
        rw [hauth]
        exact h.inside (hlength ▸ hk) v (hv.of_same hsame.symm hrunPc'.symm)
      · rw [MainServer.finished_stepWorker (not_running hinv hnone) hserver]
        exact h.unfinished (hlength ▸ hk)
    · obtain ⟨hruns, hpc⟩ := inRun_eq_some hrun
      obtain ⟨hadds, hticking, htick⟩ := runAuth_spec hauth
      have hwaiting : s'.auth.world.auth.authJobForegroundQueue ≠ [] := hadds.foreground ▸ h.waiting
      have hlength := ActorSystem.length_rounds_stepWorker hinv hsize hworker
      by_cases hat : a.pc = .tick
      · -- the call cannot have returned: the loop of `Tick` goes on
        have hnot (hk : k < s.process.actors.server.rounds.length) : False := by
          have hon := h.inside hk u ⟨hruns, hpc.trans hat⟩
          rw [htick hat] at hon
          cases hon
        exact ⟨hwaiting, fun hk => (hnot (hlength ▸ hk)).elim, fun hk => (hnot (hlength ▸ hk)).elim⟩
      obtain ⟨hserver, hiff⟩ := ActorSystem.stepWorker_inside hworker hruns (by rw [hpc]; exact hat)
      refine ⟨hwaiting, fun hk v hv => ?_, fun hk => ?_⟩
      · have hvu : v = u := by
          by_contra hne
          obtain ⟨hsame, hrunPc⟩ := ActorSystem.others_stepWorker hworker hne
          have hv' : s.AtRun v .tick := hv.of_same hsame.symm hrunPc.symm
          exact hne (ActorSystem.Runs.alone hinv (List.nodup_singleton _) hv'.1 hruns)
        subst hvu
        obtain ⟨-, hon⟩ | ⟨hne, -⟩ := hticking
        · exact hon
        · exact absurd (hpc.symm.trans (hiff.mp hv.2)) hne
      · rw [hserver] at hk ⊢
        exact h.unfinished hk
  · obtain ⟨u, inserted, -, htick⟩ | ⟨-, -, act', hbackground, hstep'⟩ := hauth
    · obtain ⟨-, -, -, ⟨hempty, -⟩ | ⟨-, hone⟩⟩ := AuthService.tickIterate_spec htick
      · exact absurd hempty h.waiting
      · omega
    · obtain ⟨-, hticking, hjobs⟩ := AuthService.background_spec hbackground hstep'
      refine ⟨?_, fun hk u hu => ?_, fun hk => ?_⟩
      · obtain ⟨-, -, hsame⟩ | ⟨-, -, -, -, hsame⟩ | ⟨-, -, -, -, -, hsame⟩ | ⟨job, -, -, -, hpush⟩ := hjobs
        · rw [hsame]
          exact h.waiting
        · rw [hsame]
          exact h.waiting
        · rw [hsame]
          exact h.waiting
        · simp [hpush]
      · rw [hprocess] at hk
        rw [hticking]
        exact h.inside hk u (hu.of_same (by rw [hprocess]) (by rw [hprocess]))
      · rw [hprocess] at hk ⊢
        exact h.unfinished hk

/-- Rounds begin when none is going on. -/
theorem idle_of_begins (hsize : 1 + WorkerThreadsCount.toNat ≤ 2 ^ 32)
    (hinv : MainServer.Inv registry.actorRunQueue.length s.process.actors.server)
    (hstep : step b HandleCts s act = some s')
    (hbegins : s'.process.actors.server.rounds = [] :: s.process.actors.server.rounds) :
    MainServer.Idle registry.actorRunQueue.length s.process.actors.server := by
  have hlength := congrArg List.length hbegins
  rw [List.length_cons] at hlength
  obtain ⟨-, -, -, hserver, -⟩ | ⟨-, -, -, hmain⟩ | ⟨u, -, hworker, -⟩ | ⟨hprocess, -⟩ :=
    step_cases hstep
  · rw [hserver] at hlength
    omega
  · obtain ⟨-, ⟨-, hidle⟩ | ⟨hsame, -⟩⟩ := hinv.stepMain_cases hmain
    · exact hidle
    · omega
  · have hsame := ActorSystem.length_rounds_stepWorker hinv hsize hworker
    omega
  · rw [hprocess] at hlength
    omega

/-- No round is forgotten. -/
theorem rounds_step (hsize : 1 + WorkerThreadsCount.toNat ≤ 2 ^ 32)
    (hinv : MainServer.Inv registry.actorRunQueue.length s.process.actors.server)
    (hstep : step b HandleCts s act = some s') :
    s.process.actors.server.rounds.length ≤ s'.process.actors.server.rounds.length := by
  obtain ⟨-, -, -, hserver, -⟩ | ⟨-, -, -, hmain⟩ | ⟨u, -, hworker, -⟩ | ⟨hprocess, -⟩ :=
    step_cases hstep
  · rw [hserver]
  · obtain ⟨-, ⟨hbegins, -⟩ | ⟨hsame, -⟩⟩ := hinv.stepMain_cases hmain
    · simp [hbegins]
    · exact hsame.ge
  · exact (ActorSystem.length_rounds_stepWorker hinv hsize hworker).ge
  · rw [hprocess]

/-- What has been accepted and what has been answered stays so. -/
theorem history_step (hstep : step b HandleCts s act = some s') :
    A_Auth.acceptedJobs s.auth.world.history <+: A_Auth.acceptedJobs s'.auth.world.history ∧
      s.auth.answered ≤ s'.auth.answered := by
  obtain ⟨-, -, message, events, -, htakes⟩ := steps_of_step hstep
  unfold AuthService.answered
  rw [htakes.history, A_Auth.acceptedJobs_append, A_Auth.answers_append, List.length_append]
  exact ⟨List.prefix_append _ _, Nat.le_add_right _ _⟩

/-- Only the background thread takes a job into its hands, or out of them. -/
theorem inHand_step (hbackground : ¬ act.isBackground) (hstep : step b HandleCts s act = some s') :
    s'.auth.world.auth.inHand = s.auth.world.auth.inHand := by
  obtain ⟨-, -, hauth, -⟩ | ⟨-, hauth, -⟩ | ⟨u, -, -, ⟨-, hauth⟩ | ⟨a, -, hauth⟩⟩ |
    ⟨-, ⟨u, inserted, -, htick⟩ | ⟨-, hisBackground, -⟩⟩ := step_cases hstep
  · rw [hauth]
  · rw [hauth]
  · rw [hauth]
  · exact (runAuth_spec hauth).1.inHand
  · exact (AuthService.tickIterate_spec htick).2.1
  · exact absurd hisBackground hbackground

/-- The steps of the background thread until it hands a job on. -/
def handsLeft : InHand → Nat
  | .nothing => 3
  | .taken _ => 2
  | .executed _ => 1

/-- Where a job is under way and none is in the foreground queue, the background thread comes closer to
handing one on. -/
theorem handsLeft_step (hbackground : act.isBackground) (hstep : step b HandleCts s act = some s')
    (hunderWay : AuthService.underWay s.auth.world.auth ≠ [])
    (hbefore : s.auth.world.auth.authJobForegroundQueue = [])
    (hafter : s'.auth.world.auth.authJobForegroundQueue = []) :
    handsLeft s'.auth.world.auth.inHand < handsLeft s.auth.world.auth.inHand := by
  obtain ⟨-, hnot, -⟩ | ⟨rfl, -⟩ | ⟨u, rfl, -⟩ | ⟨-, ⟨u, inserted, rfl, -⟩ |
    ⟨-, -, act', hact', hauth⟩⟩ := step_cases hstep
  · exact absurd hbackground hnot
  · exact hbackground.elim
  · exact hbackground.elim
  · exact hbackground.elim
  · obtain ⟨-, -, ⟨hhand, hback, -⟩ | ⟨job, hhand, hhand', -⟩ | ⟨job, job', hhand, hhand', -⟩ |
      ⟨job, -, -, -, hpush⟩⟩ := AuthService.background_spec hact' hauth
    · exact absurd (by simp [AuthService.underWay, hbefore, hhand, hback, InHand.jobs]) hunderWay
    · simp [hhand, hhand', handsLeft]
    · simp [hhand, hhand', handsLeft]
    · simp [hpush] at hafter

variable (HandleCts) in
/-- The background thread is never stuck, if bcrypt does not fail. -/
theorem exists_background (hhash : ∀ password salt, b.hashpw password salt ≠ none)
    (s : AuthProcess WorkerThreadsCount.toNat) :
    ∃ act : Action WorkerThreadsCount.toNat, act.isBackground ∧
      ∃ s', step b HandleCts s act = some s' := by
  cases hhand : s.auth.world.auth.inHand with
  | nothing =>
    refine ⟨.backgroundTake, trivial, ?_⟩
    simp [step, stepAuth, AuthService.step, AuthService.Action.ofActor, A_Auth.step, hhand]
  | taken job =>
    refine ⟨.backgroundExecute [], trivial, ?_⟩
    obtain ⟨job', hjob⟩ : ∃ job', job.executeBackgroundJob b [] = some job' := by
      cases job with
      | login job => exact ⟨_, rfl⟩
      | register job =>
        obtain ⟨hash, hhash⟩ := Option.ne_none_iff_exists'.mp (hhash job.originalPassword.cString [])
        refine ⟨.register { job with hashedPassword := hash }, ?_⟩
        simp [AuthJob.executeBackgroundJob, RegisterJob.executeBackgroundJob, hhash]
    simp [step, stepAuth, AuthService.step, AuthService.Action.ofActor, A_Auth.step, hhand,
      A_Auth.backgroundExecute, hjob]
  | executed job =>
    refine ⟨.backgroundPush, trivial, ?_⟩
    simp [step, stepAuth, AuthService.step, AuthService.Action.ofActor, A_Auth.step, hhand]

end Step

section Runs

variable {s : ℕ → AuthProcess WorkerThreadsCount.toNat}
  {a : ℕ → Action WorkerThreadsCount.toNat} {k : ℕ}

theorem actors_inv {s : AuthProcess WorkerThreadsCount.toNat} (hworkers : 0 < WorkerThreadsCount.toNat)
    (hsize : 1 + WorkerThreadsCount.toNat ≤ 2 ^ 32)
    (hs : Reachable (step b HandleCts) (init WorkerThreadsCount cts sessionDisconnected) s) :
    ActorSystem.Inv registry
        (fun _ index => decide (index = cts) || decide (index = sessionDisconnected))
        (typeIndex cts sessionDisconnected) s.process.actors ∧
      MainServer.Inv registry.actorRunQueue.length s.process.actors.server := by
  have h := ActorSystem.inv_of_reachable (List.nodup_singleton Startup.authName) hworkers hsize
    (reachable_actors hs)
  exact ⟨h, h.server_inv hworkers hsize⟩

theorem callsInv_of_reachable {s : AuthProcess WorkerThreadsCount.toNat}
    (hworkers : 0 < WorkerThreadsCount.toNat) (hsize : 1 + WorkerThreadsCount.toNat ≤ 2 ^ 32)
    (hs : Reachable (step b HandleCts) (init WorkerThreadsCount cts sessionDisconnected) s) :
    s.CallsInv := by
  refine (hs.invariant (P := fun t => Reachable (step b HandleCts)
    (init WorkerThreadsCount cts sessionDisconnected) t ∧ t.CallsInv)
    (fun t act t' h hstep => ⟨h.1.next hstep, ?_⟩) ⟨.refl _, callsInv_init⟩).2
  exact callsInv_step (actors_inv hworkers hsize h.1).2 h.2 hstep

theorem ticksInRun_of_reachable {s : AuthProcess WorkerThreadsCount.toNat}
    (hworkers : 0 < WorkerThreadsCount.toNat) (hsize : 1 + WorkerThreadsCount.toNat ≤ 2 ^ 32)
    (hs : Reachable (step b HandleCts) (init WorkerThreadsCount cts sessionDisconnected) s) :
    s.TicksInRun := by
  refine (hs.invariant (P := fun t => Reachable (step b HandleCts)
    (init WorkerThreadsCount cts sessionDisconnected) t ∧ t.TicksInRun)
    (fun t act t' h hstep => ⟨h.1.next hstep, ?_⟩) ⟨.refl _, nofun⟩).2
  exact ticksInRun_step (actors_inv hworkers hsize h.1).2 h.2 hstep

theorem actors_forever (hworkers : 0 < WorkerThreadsCount.toNat)
    (hsize : 1 + WorkerThreadsCount.toNat ≤ 2 ^ 32)
    (hinit : Reachable (step b HandleCts) (init WorkerThreadsCount cts sessionDisconnected) (s 0))
    (hrun : Forever (step b HandleCts) s a) (k : ℕ) :
    ActorSystem.Inv registry
        (fun _ index => decide (index = cts) || decide (index = sessionDisconnected))
        (typeIndex cts sessionDisconnected) (s k).process.actors ∧
      MainServer.Inv registry.actorRunQueue.length (s k).process.actors.server :=
  actors_inv hworkers hsize (hinit.trans (hrun.reachable (Nat.zero_le k)))

/-- In an infinite run, rounds begin again and again. -/
theorem rounds_recur (hworkers : 0 < WorkerThreadsCount.toNat)
    (hsize : 1 + WorkerThreadsCount.toNat ≤ 2 ^ 32)
    (hinit : Reachable (step b HandleCts) (init WorkerThreadsCount cts sessionDisconnected) (s 0))
    (hrun : Forever (step b HandleCts) s a) (hthreads : ∃ᶠ k in atTop, (a k).isThread) :
    ∃ᶠ k in atTop, (s (k + 1)).process.actors.server.rounds =
      [] :: (s k).process.actors.server.rounds := by
  refine frequently_of_measure (fun j => (s j).roundMeasure) (fun j => ?_) hthreads
  obtain ⟨h, hinv⟩ := actors_forever hworkers hsize hinit hrun j
  have hreach := hinit.trans (hrun.reachable (Nat.zero_le j))
  exact roundMeasure_step h hinv (callsInv_of_reachable hworkers hsize hreach) (hrun j)

theorem rounds_mono (hworkers : 0 < WorkerThreadsCount.toNat)
    (hsize : 1 + WorkerThreadsCount.toNat ≤ 2 ^ 32)
    (hinit : Reachable (step b HandleCts) (init WorkerThreadsCount cts sessionDisconnected) (s 0))
    (hrun : Forever (step b HandleCts) s a) :
    Monotone fun k => (s k).process.actors.server.rounds.length :=
  monotone_nat_of_le_succ fun k =>
    rounds_step hsize (actors_forever hworkers hsize hinit hrun k).2 (hrun k)

/-- After any time, any number of rounds begin. -/
theorem exists_rounds (hworkers : 0 < WorkerThreadsCount.toNat)
    (hsize : 1 + WorkerThreadsCount.toNat ≤ 2 ^ 32)
    (hinit : Reachable (step b HandleCts) (init WorkerThreadsCount cts sessionDisconnected) (s 0))
    (hrun : Forever (step b HandleCts) s a) (hthreads : ∃ᶠ k in atTop, (a k).isThread) (k m : ℕ) :
    ∃ j, k ≤ j ∧ m < (s j).process.actors.server.rounds.length := by
  refine exists_lt_of_frequently (fun j => ?_) ?_ k m
  · exact rounds_mono hworkers hsize hinit hrun (Nat.le_succ j)
  · refine (rounds_recur hworkers hsize hinit hrun hthreads).mono fun j hbegins => ?_
    rw [hbegins]
    exact Nat.lt_succ_self _

theorem apart_of_run {acts : List (Action WorkerThreadsCount.toNat)}
    {s : AuthProcess WorkerThreadsCount.toNat}
    (hrun : run (step b HandleCts) (init WorkerThreadsCount cts sessionDisconnected) acts = some s)
    (hsends : Meets (step b HandleCts) InitiateSendSucceeds
      (init WorkerThreadsCount cts sessionDisconnected) acts) : s.process.network.Apart :=
  run_invariant (P := fun s => s.process.network.Apart) (fun _ _ _ h hok hstep => apart_step h hok hstep)
    ⟨NetworkServer.inv_init _, fun _ => rfl⟩ hsends hrun

theorem Inv.free_of_acceptLocked {s : AuthProcess WorkerThreadsCount.toNat}
    (h : Inv b cts sessionDisconnected s) (hcount : s.process.network.created ≤ 2 ^ 32) (u o : Nat)
    (hpc : s.process.network.pc u = .acceptLocked o) :
    s.process.network.sessions (NetworkServer.contextOf o) = none := by
  obtain ⟨history, hrecorded⟩ := h.process.recorded
  exact hrecorded.accounted.free_of_acceptLocked hrecorded.inv hcount hpc

/-- **The server never stands still.** In an infinite run with at most 2³² connections, where
`PostReceive` locks the table for no erased session and `TrySendAsync` does not fail in the InitiateSend
handler: the loop of `Tick` and the calls of the network are always those of a worker in the `Run` of
`A_Auth`; in every state a thread of the server can go on, or a worker waits in a call for an IOCP worker
that can; and if the steps of the server's threads do not stop, round after round begins, whatever
clients, IOCP workers and the background thread do meanwhile. -/
theorem never_stands_still {acts : List (Action WorkerThreadsCount.toNat)}
    (hworkers : 0 < WorkerThreadsCount.toNat) (hsize : 1 + WorkerThreadsCount.toNat ≤ 2 ^ 32)
    (hinit : run (step b HandleCts) (init WorkerThreadsCount cts sessionDisconnected) acts = some (s 0))
    (hfoundInit : Meets (step b HandleCts) ReceivesFound
      (init WorkerThreadsCount cts sessionDisconnected) acts)
    (hsendsInit : Meets (step b HandleCts) InitiateSendSucceeds
      (init WorkerThreadsCount cts sessionDisconnected) acts)
    (hrun : Forever (step b HandleCts) s a) (hfound : ∀ k, (s k).ReceivesFound (a k))
    (hsends : ∀ k, (s k).InitiateSendSucceeds (a k))
    (hcount : ∀ k, (s k).process.network.created ≤ 2 ^ 32) :
    (∀ k, (s k).TicksInRun ∧ (s k).CallsInRun ∧
      ((s k).CanGoOn b HandleCts ∨ (s k).WaitsInCall b HandleCts)) ∧
    ((∃ᶠ k in atTop, (a k).isThread) →
      ∃ᶠ k in atTop, (s (k + 1)).process.actors.server.rounds =
        [] :: (s k).process.actors.server.rounds) := by
  refine ⟨fun k => ?_, rounds_recur hworkers hsize ⟨acts, hinit⟩ hrun⟩
  have hreach : Reachable (step b HandleCts) (init WorkerThreadsCount cts sessionDisconnected) (s k) :=
    .trans ⟨acts, hinit⟩ (hrun.reachable (Nat.zero_le k))
  have hinv : Inv b cts sessionDisconnected (s k) :=
    hrun.invariant (fun _ _ _ h hok hstep => inv_step hworkers hsize h hok hstep)
      (fun i _ => hfound i) (inv_of_run hworkers hsize hinit hfoundInit) (Nat.zero_le k)
  have hapart : (s k).process.network.Apart :=
    hrun.invariant (P := fun s => s.process.network.Apart)
      (fun _ _ _ h hok hstep => apart_step h hok hstep) (fun i _ => hsends i)
      (apart_of_run hinit hsendsInit) (Nat.zero_le k)
  obtain ⟨hsys, hserver⟩ := actors_inv hworkers hsize hreach
  have hcalls := callsInv_of_reachable hworkers hsize hreach
  exact ⟨ticksInRun_of_reachable hworkers hsize hreach, hcalls.inRun,
    hcalls.exists_step hsys hserver hapart (hinv.free_of_acceptLocked (hcount k))⟩

theorem reachable_auth {s t : AuthProcess WorkerThreadsCount.toNat}
    (h : Reachable (step b HandleCts) s t) : Reachable (AuthService.step b) s.auth t.auth := by
  refine h.map (fun s => s.auth) fun s act s' hstep => ?_
  obtain heq | ⟨act', hstep'⟩ := (steps_of_step hstep).auth
  · rw [heq]
    exact .refl _
  · exact .next (.refl _) hstep'

/-- The jobs accepted are those answered and those under way. -/
theorem accounted_forever
    (hinit : Reachable (step b HandleCts) (init WorkerThreadsCount cts sessionDisconnected) (s 0))
    (hrun : Forever (step b HandleCts) s a) (k : ℕ) : A_Auth.Accounted (s k).auth.world := by
  have hreach := reachable_auth (hinit.trans (hrun.reachable (Nat.zero_le k)))
  exact (AuthService.reachable_world hreach).invariant (fun _ _ _ h hs => A_Auth.accounted_step h hs)
    ⟨rfl, by simp [A_Auth.World.initial, A_Auth.answers]⟩

theorem length_accepted
    (hinit : Reachable (step b HandleCts) (init WorkerThreadsCount cts sessionDisconnected) (s 0))
    (hrun : Forever (step b HandleCts) s a) (k : ℕ) :
    (A_Auth.acceptedJobs (s k).auth.world.history).length =
      (s k).auth.answered + (AuthService.underWay (s k).auth.world.auth).length := by
  rw [(accounted_forever hinit hrun k).jobs_eq]
  simp only [A_Auth.World.jobs, AuthService.answered, AuthService.underWay, List.length_map,
    List.length_append]
  omega

theorem accepted_le (hrun : Forever (step b HandleCts) s a) {i j : ℕ} (hij : i ≤ j) :
    A_Auth.acceptedJobs (s i).auth.world.history <+:
      A_Auth.acceptedJobs (s j).auth.world.history := by
  induction j, hij using Nat.le_induction with
  | base => exact List.prefix_refl _
  | succ j hij ih => exact ih.trans (history_step (hrun j)).1

theorem answered_mono (hrun : Forever (step b HandleCts) s a) :
    Monotone fun k => (s k).auth.answered :=
  monotone_nat_of_le_succ fun k => (history_step (hrun k)).2

/-- A job under way gets to the foreground queue, unless one is answered before. -/
theorem exists_foreground
    (hinit : Reachable (step b HandleCts) (init WorkerThreadsCount cts sessionDisconnected) (s 0))
    (hrun : Forever (step b HandleCts) s a) (hbackground : ∃ᶠ k in atTop, (a k).isBackground)
    (hunderWay : AuthService.underWay (s k).auth.world.auth ≠ [])
    (hanswered : ∀ j, k ≤ j → (s j).auth.answered = (s k).auth.answered) :
    ∃ j, k ≤ j ∧ (s j).auth.world.auth.authJobForegroundQueue ≠ [] := by
  by_contra hnone
  push Not at hnone
  have hstays (j : ℕ) (hj : k ≤ j) : AuthService.underWay (s j).auth.world.auth ≠ [] := by
    have hle := (accepted_le hrun hj).length_le
    have hpos := List.length_pos_iff.mpr hunderWay
    rw [length_accepted hinit hrun, length_accepted hinit hrun, hanswered j hj] at hle
    exact List.length_pos_iff.mp (by omega)
  refine not_frequently_of_decreasing (k := k) (fun j => handsLeft (s j).auth.world.auth.inHand)
    (fun j hj h => ?_) (fun j hj h => ?_) hbackground
  · exact handsLeft_step h (hrun j) (hstays j hj) (hnone j hj) (hnone (j + 1) (Nat.le_succ_of_le hj))
  · exact (congrArg handsLeft (inHand_step h (hrun j))).le

/-- **As long as a job is under way, one will be answered.** -/
theorem exists_answered (hworkers : 0 < WorkerThreadsCount.toNat)
    (hsize : 1 + WorkerThreadsCount.toNat ≤ 2 ^ 32)
    (hinit : Reachable (step b HandleCts) (init WorkerThreadsCount cts sessionDisconnected) (s 0))
    (hrun : Forever (step b HandleCts) s a) (hthreads : ∃ᶠ k in atTop, (a k).isThread)
    (hbackground : ∃ᶠ k in atTop, (a k).isBackground)
    (hunderWay : AuthService.underWay (s k).auth.world.auth ≠ []) :
    ∃ j, k ≤ j ∧ (s k).auth.answered < (s j).auth.answered := by
  by_contra hnone
  push Not at hnone
  have hanswered (j : ℕ) (hj : k ≤ j) : (s j).auth.answered = (s k).auth.answered :=
    Nat.le_antisymm (hnone j hj) (answered_mono hrun hj)
  obtain ⟨i, hi, hwaiting⟩ := exists_foreground hinit hrun hbackground hunderWay hanswered
  have hwaits (j : ℕ) (hj : i ≤ j) : (s j).Waits (s i).process.actors.server.rounds.length := by
    induction j, hj using Nat.le_induction with
    | base => exact ⟨hwaiting, fun hk => absurd hk (lt_irrefl _), fun hk => absurd hk (lt_irrefl _)⟩
    | succ j hij ih =>
      obtain ⟨hsys, hinv⟩ := actors_forever hworkers hsize hinit hrun j
      have hsame := (hanswered (j + 1) (by omega)).trans (hanswered j (by omega)).symm
      exact waits_step hsize hsys hinv ih hsame (hrun j)
  have hrounds := rounds_recur hworkers hsize hinit hrun hthreads
  obtain ⟨m, hm, hlt⟩ := exists_rounds hworkers hsize hinit hrun hthreads i
    (s i).process.actors.server.rounds.length
  obtain ⟨j, hj, hbegins⟩ := frequently_atTop.mp hrounds m
  -- the round before this one is over, but `A_Auth` has not left it
  obtain ⟨-, hinv⟩ := actors_forever hworkers hsize hinit hrun j
  have hle : (s m).process.actors.server.rounds.length ≤ (s j).process.actors.server.rounds.length :=
    rounds_mono hworkers hsize hinit hrun hj
  refine (hwaits j (hm.trans hj)).unfinished (by omega) ?_
  exact (idle_of_begins hsize hinv (hrun j) hbegins).finished (by omega) Nat.one_pos

/-- **Every request that becomes a job is answered.** In an infinite run in which neither the threads
of the server nor the background thread stop: the jobs that have been accepted at some time are
eventually answered, first of all and in the order in which they were accepted, each to the context that
requested it. -/
theorem requests_answered_eventually (hworkers : 0 < WorkerThreadsCount.toNat)
    (hsize : 1 + WorkerThreadsCount.toNat ≤ 2 ^ 32)
    (hinit : Reachable (step b HandleCts) (init WorkerThreadsCount cts sessionDisconnected) (s 0))
    (hrun : Forever (step b HandleCts) s a) (hthreads : ∃ᶠ k in atTop, (a k).isThread)
    (hbackground : ∃ᶠ k in atTop, (a k).isBackground) (k : ℕ) :
    ∃ j, k ≤ j ∧
      A_Auth.acceptedJobs (s k).auth.world.history <+:
        (A_Auth.answers (s j).auth.world.history).map (fun answer => answer.1.asAccepted) ∧
      ∀ answer ∈ A_Auth.answers (s j).auth.world.history, A_Auth.IsResponseTo answer.1 answer.2 := by
  have hcount (m : ℕ) : m ≤ (A_Auth.acceptedJobs (s k).auth.world.history).length →
      ∃ j, k ≤ j ∧ m ≤ (s j).auth.answered := by
    induction m with
    | zero => exact fun _ => ⟨k, le_refl _, Nat.zero_le _⟩
    | succ m ih =>
      intro hm
      obtain ⟨j, hj, hle⟩ := ih (by omega)
      by_cases hdone : m + 1 ≤ (s j).auth.answered
      · exact ⟨j, hj, hdone⟩
      have haccepted := (accepted_le hrun hj).length_le
      rw [length_accepted hinit hrun j] at haccepted
      have hunderWay : AuthService.underWay (s j).auth.world.auth ≠ [] :=
        List.length_pos_iff.mp (by omega)
      obtain ⟨i, hi, hlt⟩ :=
        exists_answered hworkers hsize hinit hrun hthreads hbackground hunderWay
      exact ⟨i, hj.trans hi, by omega⟩
  obtain ⟨j, hj, hle⟩ := hcount _ (le_refl _)
  obtain ⟨hjobs, hresponses⟩ := accounted_forever hinit hrun j
  refine ⟨j, hj, List.prefix_of_prefix_length_le (accepted_le hrun hj) ?_ ?_, hresponses⟩
  · rw [hjobs, A_Auth.World.jobs, List.append_assoc, List.append_assoc, List.map_append, List.map_map]
    exact List.prefix_append _ _
  · rw [List.length_map]
    exact hle

/-- **A session that is gone is handled eventually.** In an infinite run in which the steps of the
server's threads do not stop, with at most 2³² connections and where `PostReceive` locks the table for no
erased session: the notice of a session that has been accepted and erased, and that no thread has left to
push, is eventually handled. -/
theorem disconnect_handled_eventually {acts : List (Action WorkerThreadsCount.toNat)}
    (hworkers : 0 < WorkerThreadsCount.toNat) (hsize : 1 + WorkerThreadsCount.toNat ≤ 2 ^ 32)
    (hinit : run (step b HandleCts) (init WorkerThreadsCount cts sessionDisconnected) acts = some (s 0))
    (hfoundInit : Meets (step b HandleCts) ReceivesFound
      (init WorkerThreadsCount cts sessionDisconnected) acts)
    (hrun : Forever (step b HandleCts) s a) (hfound : ∀ k, (s k).ReceivesFound (a k))
    (hthreads : ∃ᶠ k in atTop, (a k).isThread)
    (hcount : ∀ k, (s k).process.network.created ≤ 2 ^ 32) {o : Nat}
    (ho : o < (s k).process.network.created) (htable : ¬ (s k).process.network.InTable o)
    (haccepts : ∀ u, ((s k).process.network.pc u).accepts ≠ some o)
    (hnotifies : ∀ u, ((s k).process.network.pc u).notifies ≠ some (NetworkServer.contextOf o)) :
    ∃ j, k ≤ j ∧ .disconnected (NetworkServer.contextOf o) ∈ (s j).auth.world.history := by
  have hinv (j : ℕ) : Inv b cts sessionDisconnected (s j) :=
    hrun.invariant (fun _ _ _ h hok hstep => inv_step hworkers hsize h hok hstep)
      (fun i _ => hfound i) (inv_of_run hworkers hsize hinit hfoundInit) (Nat.zero_le j)
  obtain ⟨j, hj, hlong⟩ := exists_rounds hworkers hsize ⟨acts, hinit⟩ hrun hthreads k
    ((s k).process.actors.server.rounds.length + 1)
  exact ⟨j, hj, (hinv k).notice_handled (hinv j) hworkers hsize (hrun.reachable hj) (hcount j) ho htable
    haccepts hnotifies (Or.inl hlong)⟩

/-! ## Runs without an end -/

/-- A state without a step of an IOCP worker, after a number of connections. -/
structure Serving (b : Bcrypt) (HandleCts : UInt16 → Bytes → Option AuthRequest)
    (cts sessionDisconnected : UInt32) (created : Nat) (s : AuthProcess WorkerThreadsCount.toNat) :
    Prop where
  reachable : Reachable (step b HandleCts) (init WorkerThreadsCount cts sessionDisconnected) s
  inv : Inv b cts sessionDisconnected s
  apart : s.process.network.Apart
  created : s.process.network.created = created
  idle : ∀ u, WorkerThreadsCount.toNat ≤ u → s.process.network.pc u = .idle

section Serving

variable {s s' : AuthProcess WorkerThreadsCount.toNat} {act : Action WorkerThreadsCount.toNat}
  {created : Nat}

theorem Serving.step (h : Serving b HandleCts cts sessionDisconnected created s)
    (hworkers : 0 < WorkerThreadsCount.toNat) (hsize : 1 + WorkerThreadsCount.toNat ≤ 2 ^ 32)
    (hact : act.isThread ∨ act.isBackground) (hstep : step b HandleCts s act = some s') :
    Serving b HandleCts cts sessionDisconnected created s' := by
  have hcalls := callsInv_of_reachable hworkers hsize h.reachable
  obtain ⟨hothers, hcreated, hfound, hsends⟩ := hcalls.own_step hact hstep
  exact ⟨h.reachable.next hstep, inv_step hworkers hsize h.inv hfound hstep,
    apart_step h.apart hsends hstep, hcreated.trans h.created,
    fun u hu => (hothers u hu).trans (h.idle u hu)⟩

theorem Serving.of_run {acts : List (Action WorkerThreadsCount.toNat)}
    (hworkers : 0 < WorkerThreadsCount.toNat) (hsize : 1 + WorkerThreadsCount.toNat ≤ 2 ^ 32)
    (hrun : run (AuthProcess.step b HandleCts) (init WorkerThreadsCount cts sessionDisconnected) acts =
      some s)
    (hfound : Meets (AuthProcess.step b HandleCts) ReceivesFound
      (init WorkerThreadsCount cts sessionDisconnected) acts)
    (hsends : Meets (AuthProcess.step b HandleCts) InitiateSendSucceeds
      (init WorkerThreadsCount cts sessionDisconnected) acts)
    (hcreated : s.process.network.created = created) (hidle : ∀ u, s.process.network.pc u = .idle) :
    Serving b HandleCts cts sessionDisconnected created s :=
  ⟨⟨acts, hrun⟩, inv_of_run hworkers hsize hrun hfound, apart_of_run hrun hsends, hcreated,
    fun u _ => hidle u⟩

/-- Nobody waits where the IOCP workers are idle. -/
theorem Serving.canGoOn (h : Serving b HandleCts cts sessionDisconnected created s)
    (hworkers : 0 < WorkerThreadsCount.toNat) (hsize : 1 + WorkerThreadsCount.toNat ≤ 2 ^ 32)
    (hcount : created ≤ 2 ^ 32) : s.CanGoOn b HandleCts := by
  obtain ⟨hsys, hinv⟩ := actors_inv hworkers hsize h.reachable
  have hcalls := callsInv_of_reachable hworkers hsize h.reachable
  have hfree := h.inv.free_of_acceptLocked (h.created.trans_le hcount)
  obtain hgoes | ⟨t, u, -, hu, hheld, -⟩ := hcalls.exists_step hsys hinv h.apart hfree
  · exact hgoes
  · rw [h.apart.inv.locks.heldBy_iff, h.idle u hu] at hheld
    simp [NetworkServer.Pc.shared, NetworkServer.Pc.exclusive] at hheld

/-- The threads of the server and the background thread can take turns forever, if bcrypt does not
fail. -/
theorem exists_forever_turns (hhash : ∀ password salt, b.hashpw password salt ≠ none)
    (hworkers : 0 < WorkerThreadsCount.toNat) (hsize : 1 + WorkerThreadsCount.toNat ≤ 2 ^ 32)
    (hcount : created ≤ 2 ^ 32) {s₀ : AuthProcess WorkerThreadsCount.toNat}
    (h₀ : Serving b HandleCts cts sessionDisconnected created s₀) :
    ∃ (s : ℕ → AuthProcess WorkerThreadsCount.toNat) (a : ℕ → Action WorkerThreadsCount.toNat),
      Forever (AuthProcess.step b HandleCts) s a ∧ s 0 = s₀ ∧
      (∃ᶠ k in atTop, (a k).isThread) ∧ (∃ᶠ k in atTop, (a k).isBackground) ∧
      ∀ k, (s k).process.network.created = created ∧ (s k).ReceivesFound (a k) ∧
        (s k).InitiateSendSucceeds (a k) := by
  have hturn (k : ℕ) (s : AuthProcess WorkerThreadsCount.toNat)
      (hs : Serving b HandleCts cts sessionDisconnected created s) :
      ∃ act s', (if k % 2 = 0 then Action.isThread act else act.isBackground) ∧
        AuthProcess.step b HandleCts s act = some s' ∧
        Serving b HandleCts cts sessionDisconnected created s' := by
    split_ifs
    · obtain ⟨act, hact, s', hstep⟩ := hs.canGoOn hworkers hsize hcount
      exact ⟨act, s', hact, hstep, hs.step hworkers hsize (Or.inl hact) hstep⟩
    · obtain ⟨act, hact, s', hstep⟩ := exists_background HandleCts hhash s
      exact ⟨act, s', hact, hstep, hs.step hworkers hsize (Or.inr hact) hstep⟩
  obtain ⟨s, a, hrun, rfl, hturns⟩ := exists_forever hturn h₀
  have hown (k : ℕ) : (a k).isThread ∨ (a k).isBackground := by
    have hk := hturns k
    split_ifs at hk
    · exact Or.inl hk
    · exact Or.inr hk
  refine ⟨s, a, hrun, rfl, frequently_atTop.mpr fun k => ⟨2 * k, by omega, ?_⟩,
    frequently_atTop.mpr fun k => ⟨2 * k + 1, by omega, ?_⟩, fun k => ?_⟩
  · have hk := hturns (2 * k)
    rwa [if_pos (by omega)] at hk
  · have hk := hturns (2 * k + 1)
    rwa [if_neg (by omega)] at hk
  · have hk : Serving b HandleCts cts sessionDisconnected created (s k) :=
      hrun.invariant (fun _ _ _ h hact hstep => h.step hworkers hsize hact hstep)
        (fun i _ => hown i) h₀ (Nat.zero_le k)
    have hcalls := callsInv_of_reachable hworkers hsize hk.reachable
    exact ⟨hk.created, (hcalls.own_step (hown k) (hrun k)).2.2⟩

end Serving

end Runs

/-- A client has connected and sent a request, which `A_Auth` has accepted, and has disconnected. -/
def loginAccepted : List (Action (UInt32.toNat 2)) :=
  loginAndDisconnect ++ (roundBegins ++ List.replicate 7 (.worker ⟨0, Nat.two_pos⟩))

theorem plainBcrypt_hashpw (password salt : Bytes) :
    A_Auth.plainBcrypt.hashpw password salt ≠ none := nofun

theorem sends_loginAccepted : Meets (step A_Auth.plainBcrypt logins) InitiateSendSucceeds authServer
    loginAccepted := by
  have hnone : Meets (step A_Auth.plainBcrypt logins) (fun s act => s.initiateSends act = false)
      authServer loginAccepted := by
    decide +kernel
  exact Meets.imp (P := fun _ => True) (fun _ _ _ h => initiateSendSucceeds_of_not h)
    (fun _ _ _ _ _ _ => trivial) trivial hnone

theorem receivesFound_loginAccepted : Meets (step A_Auth.plainBcrypt logins) ReceivesFound authServer
    loginAccepted := by
  decide +kernel

theorem exists_loginAccepted : ∃ s,
    run (step A_Auth.plainBcrypt logins) authServer loginAccepted = some s ∧ s.auth.answered = 0 ∧
      (A_Auth.acceptedJobs s.auth.world.history).length = 1 ∧
      Serving A_Auth.plainBcrypt logins 0 1 1 s := by
  obtain ⟨s, hrun, hanswered, haccepted, hcreated, hidle⟩ : ∃ s,
      run (step A_Auth.plainBcrypt logins) authServer loginAccepted = some s ∧ s.auth.answered = 0 ∧
      (A_Auth.acceptedJobs s.auth.world.history).length = 1 ∧ s.process.network.created = 1 ∧
      ∀ u, s.process.network.pc u = .idle := by
    refine ⟨_, rfl, rfl, rfl, rfl, fun u => ?_⟩
    match u with
    | 0 | 1 | 2 | 3 | u + 4 => rfl
  exact ⟨s, hrun, hanswered, haccepted, .of_run (by decide) (by decide)
    (show run _ (init 2 0 1) _ = some s from hrun) receivesFound_loginAccepted sends_loginAccepted
    hcreated hidle⟩

theorem never_stands_still_loginAccepted :
    ∃ (s : ℕ → AuthProcess (UInt32.toNat 2)) (a : ℕ → Action (UInt32.toNat 2)),
      Forever (step A_Auth.plainBcrypt logins) s a ∧
      (A_Auth.acceptedJobs (s 0).auth.world.history).length = 1 ∧
      (∀ k, (s k).CanGoOn A_Auth.plainBcrypt logins ∨ (s k).WaitsInCall A_Auth.plainBcrypt logins) ∧
      ∃ᶠ k in atTop, (s (k + 1)).process.actors.server.rounds =
        [] :: (s k).process.actors.server.rounds := by
  obtain ⟨s₀, hs₀, -, haccepted, hserving⟩ := exists_loginAccepted
  obtain ⟨s, a, hrun, rfl, hthreads, -, hown⟩ :=
    exists_forever_turns plainBcrypt_hashpw (by decide) (by decide) (by decide) hserving
  obtain ⟨hgoes, hrounds⟩ := never_stands_still (by decide) (by decide)
    (show run _ (init 2 0 1) _ = some (s 0) from hs₀) receivesFound_loginAccepted
    sends_loginAccepted hrun (fun k => (hown k).2.1) (fun k => (hown k).2.2)
    (fun k => by rw [(hown k).1]; decide)
  exact ⟨s, a, hrun, haccepted, fun k => (hgoes k).2.2, hrounds hthreads⟩

theorem disconnect_handled_eventually_loginAndDisconnect :
    ∃ (s : ℕ → AuthProcess (UInt32.toNat 2)) (a : ℕ → Action (UInt32.toNat 2)),
      Forever (step A_Auth.plainBcrypt logins) s a ∧ (s 0).auth.world.history = [] ∧
      ∃ j, .disconnected 0 ∈ (s j).auth.world.history := by
  obtain ⟨s₀, hs₀, hcreated, hidle, hsessions, hhistory⟩ : ∃ s₀,
      run (step A_Auth.plainBcrypt logins) authServer loginAndDisconnect = some s₀ ∧
      s₀.process.network.created = 1 ∧ (∀ u, s₀.process.network.pc u = .idle) ∧
      s₀.process.network.sessions =
        Function.update (Function.update (fun _ => none) 0 (some 0)) 0 none ∧
      s₀.auth.world.history = [] := by
    refine ⟨_, rfl, rfl, fun u => ?_, rfl, rfl⟩
    match u with
    | 0 | 1 | 2 | 3 | u + 4 => rfl
  have htable : ¬ s₀.process.network.InTable 0 := by
    rintro ⟨context, hcontext⟩
    rw [hsessions, Function.update_idem, Function.update_apply] at hcontext
    split_ifs at hcontext
  have hfound := receivesFound_loginAccepted.of_append
  obtain ⟨s, a, hrun, rfl, hthreads, -, hown⟩ :=
    exists_forever_turns plainBcrypt_hashpw (by decide) (by decide) (by decide)
      (Serving.of_run (by decide) (by decide) (show run _ (init 2 0 1) _ = some s₀ from hs₀) hfound
        sends_loginAccepted.of_append hcreated hidle)
  obtain ⟨j, -, hhandled⟩ := disconnect_handled_eventually (o := 0) (k := 0) (by decide) (by decide)
    (show run _ (init 2 0 1) _ = some (s 0) from hs₀) hfound hrun (fun k => (hown k).2.1) hthreads
    (fun k => by rw [(hown k).1]; decide) (by rw [hcreated]; decide) htable
    (by simp [hidle, NetworkServer.Pc.accepts]) (by simp [hidle, NetworkServer.Pc.notifies])
  exact ⟨s, a, hrun, hhistory, j, hhandled⟩

theorem requests_answered_eventually_loginAccepted :
    ∃ (s : ℕ → AuthProcess (UInt32.toNat 2)) (a : ℕ → Action (UInt32.toNat 2)),
      Forever (step A_Auth.plainBcrypt logins) s a ∧ (s 0).auth.answered = 0 ∧
      ∃ j, 1 ≤ (s j).auth.answered := by
  obtain ⟨s₀, hs₀, hanswered, haccepted, hserving⟩ := exists_loginAccepted
  obtain ⟨s, a, hrun, rfl, hthreads, hbackground, -⟩ :=
    exists_forever_turns plainBcrypt_hashpw (by decide) (by decide) (by decide) hserving
  obtain ⟨j, -, hprefix, -⟩ := requests_answered_eventually (by decide) (by decide) hserving.reachable
    hrun hthreads hbackground 0
  refine ⟨s, a, hrun, hanswered, j, ?_⟩
  have hle := hprefix.length_le
  rw [haccepted, List.length_map] at hle
  exact hle

end AuthProcess

end RatkiniaServer
