import RatkiniaServer.Actor.Proofs.AAuth

/-!
# The jobs of `A_Auth`

A job that a handler has accepted goes through the background queue, the hands of the background
thread and the foreground queue, and is answered by `Tick`. At every moment each job is in one of
these places, in the order of acceptance. A single `Tick` answers all of the foreground queue only as
long as no job but the last one fails, since it returns at the first failure.
-/

namespace RatkiniaServer

/-- The job as it was accepted, without the result of its execution. -/
def AuthJob.asAccepted : AuthJob → AuthJob
  | .login job => .login { job with isPasswordMatch := false }
  | .register job => .register { job with hashedPassword := [] }

/-- The job in the hands of the background thread. -/
def InHand.jobs : InHand → List AuthJob
  | .nothing => []
  | .taken job => [job]
  | .executed job => [job]

namespace A_Auth

open Transition

variable {b : Bcrypt} {a : A_Auth} {w w' : World} {act : Action}

/-! ## Where a job can be -/

/-- The job of an event of acceptance. -/
def Event.acceptedJob : Event → Option AuthJob
  | .accepted job => some job
  | _ => none

/-- The job and the response of an answer. -/
def Event.answer : Event → Option (AuthJob × Response)
  | .answered job response => some (job, response)
  | _ => none

/-- The jobs accepted, in order. -/
def acceptedJobs (history : List Event) : List AuthJob := history.filterMap Event.acceptedJob

/-- The answers sent to jobs, in order. -/
def answers (history : List Event) : List (AuthJob × Response) := history.filterMap Event.answer

/-- All jobs that have not been dropped, from the first one accepted on: those answered, the foreground
queue, the hands of the background thread and the background queue. -/
def World.jobs (w : World) : List AuthJob :=
  (answers w.history).map Prod.fst ++ w.auth.authJobForegroundQueue ++ w.auth.inHand.jobs ++
    w.auth.authJobBackgroundQueue

/-- The response is one to the job, sent to the context that requested it. -/
def IsResponseTo : AuthJob → Response → Prop
  | .login job, .loginResponse context _ => context = job.context
  | .register job, .registerResponse context _ _ => context = job.context
  | _, _ => False

/-- Every job accepted is in one place, and every answer is one to its job. -/
structure Accounted (w : World) : Prop where
  jobs_eq : acceptedJobs w.history = w.jobs.map AuthJob.asAccepted
  responses : ∀ answer ∈ answers w.history, IsResponseTo answer.1 answer.2

/-! ## One step -/

theorem asAccepted_of_execute {salt : Bytes} {job job' : AuthJob}
    (h : job.executeBackgroundJob b salt = some job') : job'.asAccepted = job.asAccepted := by
  cases job with
  | login job =>
    cases h
    rfl
  | register job =>
    obtain ⟨executed, hexecuted, rfl⟩ := Option.map_eq_some_iff.mp h
    obtain ⟨hash, -, rfl⟩ := Option.map_eq_some_iff.mp hexecuted
    rfl

theorem asAccepted_onRegisterRequest {context : UInt32} {account password : Bytes} {job : AuthJob}
    (h : onRegisterRequest context account password = .inl job) : job.asAccepted = job := by
  unfold onRegisterRequest at h
  split at h
  · cases h
  · cases h
    rfl

theorem asAccepted_onLoginRequest {lookup : Bytes → Option (UInt64 × Bytes)} {context : UInt32}
    {account password : Bytes} {job : AuthJob}
    (h : a.onLoginRequest lookup context account password = .inl job) : job.asAccepted = job := by
  unfold onLoginRequest at h
  split_ifs at h
  cases h
  unfold loginJobOf
  split <;> rfl

/-- `Tick` answers a job with one response to its context, and leaves the queues alone. -/
theorem answer_spec (a : A_Auth) (tryCreateAccount : Bytes → Bytes → CreateAccountResult)
    (job : AuthJob) : IsResponseTo job (a.answer tryCreateAccount job).2.1 ∧
      (a.answer tryCreateAccount job).1.authJobForegroundQueue = a.authJobForegroundQueue ∧
      (a.answer tryCreateAccount job).1.authJobBackgroundQueue = a.authJobBackgroundQueue ∧
      (a.answer tryCreateAccount job).1.inHand = a.inHand := by
  cases job with
  | login job =>
    by_cases hmatch : job.isPasswordMatch = false
    · have hanswer : a.answer tryCreateAccount (.login job) =
          (a, .loginResponse job.context .failure, false) := if_pos hmatch
      rw [hanswer]
      exact ⟨rfl, rfl, rfl, rfl⟩
    · simp only [answer, if_neg hmatch, addContext]
      split_ifs
      all_goals exact ⟨rfl, rfl, rfl, rfl⟩
  | register job =>
    simp only [answer]
    split_ifs
    all_goals exact ⟨rfl, rfl, rfl, rfl⟩

theorem acceptedJobs_append (history events : List Event) :
    acceptedJobs (history ++ events) = acceptedJobs history ++ acceptedJobs events :=
  List.filterMap_append

theorem answers_append (history events : List Event) :
    answers (history ++ events) = answers history ++ answers events :=
  List.filterMap_append

/-- A step that accepts no job and answers none, and moves the jobs at most. -/
theorem Accounted.of_moves (h : Accounted w) (events : List Event)
    (hhistory : w'.history = w.history ++ events) (haccepted : acceptedJobs events = [])
    (hanswers : answers events = [])
    (hjobs : (w'.auth.authJobForegroundQueue ++ w'.auth.inHand.jobs ++
        w'.auth.authJobBackgroundQueue).map AuthJob.asAccepted =
      (w.auth.authJobForegroundQueue ++ w.auth.inHand.jobs ++
        w.auth.authJobBackgroundQueue).map AuthJob.asAccepted) : Accounted w' := by
  have hsame : answers w'.history = answers w.history := by
    rw [hhistory, answers_append, hanswers, List.append_nil]
  refine ⟨?_, hsame ▸ h.responses⟩
  have hsplit (v : World) : v.jobs.map AuthJob.asAccepted =
      ((answers v.history).map Prod.fst).map AuthJob.asAccepted ++
        (v.auth.authJobForegroundQueue ++ v.auth.inHand.jobs ++
          v.auth.authJobBackgroundQueue).map AuthJob.asAccepted := by
    rw [World.jobs, ← List.map_append]
    simp only [List.append_assoc]
  calc acceptedJobs w'.history
      = acceptedJobs w.history := by
        rw [hhistory, acceptedJobs_append, haccepted, List.append_nil]
    _ = w.jobs.map AuthJob.asAccepted := h.jobs_eq
    _ = w'.jobs.map AuthJob.asAccepted := by
        rw [hsplit w, hsplit w', hsame, hjobs]

/-- A request puts its job, if it is accepted, at the end. -/
theorem Accounted.request (h : Accounted w) {outcome : AuthJob ⊕ List Response}
    (haccepted : ∀ job, outcome = .inl job → job.asAccepted = job) : Accounted (w.request outcome) := by
  cases outcome with
  | inl job =>
    refine ⟨?_, ?_⟩
    · have hanswers : answers (w.history ++ [.accepted job]) = answers w.history := by
        rw [answers_append]
        exact List.append_nil _
      change acceptedJobs (w.history ++ [.accepted job]) = _
      rw [acceptedJobs_append, h.jobs_eq, World.jobs, World.jobs]
      simp only [World.request, pushJob, hanswers, ← List.append_assoc, List.map_append]
      rw [List.append_right_inj]
      exact congrArg (fun j => [j]) (haccepted job rfl).symm
    · change ∀ answer ∈ answers (w.history ++ [.accepted job]), _
      rw [answers_append]
      simpa [answers, Event.answer] using h.responses
  | inr responses => exact h.of_moves [.refused responses] rfl rfl rfl rfl

/-- An iteration of `Tick` answers the job at the front of its queue, if there is one. -/
theorem Accounted.tickIterate (h : Accounted w)
    (tryCreateAccount : Bytes → Bytes → CreateAccountResult) :
    Accounted (w.tickIterate tryCreateAccount) := by
  cases hq : w.auth.authJobForegroundQueue with
  | nil =>
    refine h.of_moves [] ?_ rfl rfl ?_
    · simp [World.tickIterate, hq]
    · simp [World.tickIterate, hq]
  | cons job rest =>
    obtain ⟨hresponse, hforeground, hbackground, hinHand⟩ :=
      answer_spec { w.auth with authJobForegroundQueue := rest } tryCreateAccount job
    set response :=
      ({ w.auth with authJobForegroundQueue := rest }.answer tryCreateAccount job).2.1
    have hhistory : (w.tickIterate tryCreateAccount).history =
        w.history ++ [.answered job response] := tickIterate_history hq
    have hanswers : answers (w.history ++ [.answered job response]) =
        answers w.history ++ [(job, response)] := answers_append _ _
    refine ⟨?_, ?_⟩
    · rw [hhistory, acceptedJobs_append, h.jobs_eq, World.jobs, World.jobs, hhistory, hanswers, hq]
      simp only [World.tickIterate, hq, hforeground, hbackground, hinHand]
      simp [acceptedJobs, Event.acceptedJob]
    · rw [hhistory, hanswers]
      intro answer hmem
      rcases List.mem_append.mp hmem with hmem | hmem
      · exact h.responses answer hmem
      · rw [List.mem_singleton.mp hmem]
        exact hresponse

/-- Every step keeps all jobs accounted for. -/
theorem accounted_step (h : Accounted w) (hs : step b w act = some w') : Accounted w' := by
  cases act with
  | registerRequest context account password =>
    simp only [step] at hs
    split_ifs at hs
    cases hs
    exact h.request fun job hjob => asAccepted_onRegisterRequest hjob
  | loginRequest lookup context account password =>
    simp only [step] at hs
    split_ifs at hs
    cases hs
    exact h.request fun job hjob => asAccepted_onLoginRequest hjob
  | sessionDisconnected context =>
    simp only [step] at hs
    split_ifs at hs
    cases hs
    refine h.of_moves [.disconnected context] rfl rfl rfl ?_
    simp only [handleSessionDisconnected]
    split <;> rfl
  | tickBegin =>
    simp only [step] at hs
    split_ifs at hs
    cases hs
    exact h.of_moves [] (List.append_nil _).symm rfl rfl rfl
  | tickIterate tryCreateAccount =>
    simp only [step] at hs
    split_ifs at hs
    cases hs
    exact h.tickIterate tryCreateAccount
  | backgroundTake =>
    simp only [step] at hs
    split at hs
    · rename_i hhand
      cases hs
      refine h.of_moves [] (List.append_nil _).symm rfl rfl ?_
      cases hq : w.auth.authJobBackgroundQueue with
      | nil => simp [backgroundTake, hq]
      | cons job rest => simp [backgroundTake, hq, hhand, InHand.jobs]
    · cases hs
  | backgroundExecute salt =>
    simp only [step] at hs
    split at hs
    · rename_i job hhand
      obtain ⟨a, ha, rfl⟩ := Option.map_eq_some_iff.mp hs
      obtain ⟨executed, hexecuted, rfl⟩ := Option.map_eq_some_iff.mp ha
      refine h.of_moves [] (List.append_nil _).symm rfl rfl ?_
      simp [hhand, InHand.jobs, asAccepted_of_execute hexecuted]
    · cases hs
  | backgroundPush =>
    simp only [step] at hs
    split at hs
    · rename_i job hhand
      cases hs
      refine h.of_moves [] (List.append_nil _).symm rfl rfl ?_
      simp [backgroundPush, hhand, InHand.jobs]
    · cases hs

/-- **The jobs.** In every state of every run the jobs accepted are those answered, those in the
foreground queue, the one in the hands of the background thread and those in the background queue, in
this order; and each job answered got one response, to the context that requested it. -/
theorem jobs_accounted (b : Bcrypt) (acts : List Action) (w : World)
    (hrun : run (step b) World.initial acts = some w) :
    acceptedJobs w.history =
        ((answers w.history).map Prod.fst ++ w.auth.authJobForegroundQueue ++ w.auth.inHand.jobs ++
          w.auth.authJobBackgroundQueue).map AuthJob.asAccepted ∧
      ∀ answer ∈ answers w.history, IsResponseTo answer.1 answer.2 :=
  have h : Accounted w := run_invariant' (P := Accounted) (fun _ _ _ => accounted_step)
    ⟨rfl, by simp [World.initial, answers]⟩ hrun
  ⟨h.jobs_eq, h.responses⟩

/-- A login and a registration, of which the login has been answered and the registration is with the
background thread. -/
def loginAndRegistration : List Action :=
  [.loginRequest (fun _ => some (7, [])) 1 [] [], .registerRequest 2 (List.replicate 6 97)
    (List.replicate 8 97), .backgroundTake, .backgroundExecute [], .backgroundPush, .backgroundTake,
    .tickBegin, .tickIterate fun _ _ => .success]

theorem jobs_accounted_loginAndRegistration : ∃ w,
    run (step plainBcrypt) World.initial loginAndRegistration = some w ∧
      (answers w.history).length = 1 ∧ w.auth.inHand.jobs.length = 1 ∧
      (acceptedJobs w.history =
        ((answers w.history).map Prod.fst ++ w.auth.authJobForegroundQueue ++ w.auth.inHand.jobs ++
          w.auth.authJobBackgroundQueue).map AuthJob.asAccepted ∧
      ∀ answer ∈ answers w.history, IsResponseTo answer.1 answer.2) :=
  ⟨_, rfl, rfl, rfl, jobs_accounted plainBcrypt loginAndRegistration _ rfl⟩

/-! ## A single `Tick` -/

/-- The login is rejected or the registration fails, where `tryCreateAccount` is how the database
answers. -/
def fails (tryCreateAccount : Bytes → Bytes → CreateAccountResult) : AuthJob → Bool
  | .login job => !job.isPasswordMatch
  | .register job => decide (tryCreateAccount job.id job.hashedPassword.cString ≠ .success)

/-- From `w` to `w'` the foreground queue has been emptied and all of its jobs have been answered. -/
def Drained (w w' : World) : Prop :=
  w'.auth.authJobForegroundQueue = [] ∧
    (answers w'.history).map Prod.fst =
      (answers w.history).map Prod.fst ++ w.auth.authJobForegroundQueue

/-- No job but the last one fails, where `databases k` is how the database answers the job `k`. -/
def FailsLastOnly (databases : Nat → Bytes → Bytes → CreateAccountResult) (jobs : List AuthJob) :
    Prop :=
  ∀ k job, jobs[k]? = some job → k + 1 < jobs.length → fails (databases k) job = false

theorem failsLastOnly_cons {databases : Nat → Bytes → Bytes → CreateAccountResult} {job : AuthJob}
    {rest : List AuthJob} : FailsLastOnly databases (job :: rest) ↔
      (rest ≠ [] → fails (databases 0) job = false) ∧
        FailsLastOnly (fun k => databases (k + 1)) rest := by
  constructor
  · intro h
    refine ⟨fun hne => h 0 job rfl ?_, fun k j hj hk => h (k + 1) j hj ?_⟩
    · have hpos := List.length_pos_iff.mpr hne
      rw [List.length_cons]
      omega
    · rw [List.length_cons]
      omega
  · rintro ⟨hfirst, hrest⟩ k j hj hk
    rw [List.length_cons] at hk
    cases k with
    | zero =>
      obtain rfl := Option.some.inj hj
      exact hfirst (List.length_pos_iff.mp (by omega))
    | succ k => exact hrest k j hj (by omega)

theorem answer_goesOn (a : A_Auth) (tryCreateAccount : Bytes → Bytes → CreateAccountResult)
    (job : AuthJob) : (a.answer tryCreateAccount job).2.2 = !fails tryCreateAccount job := by
  cases job with
  | login job =>
    cases hmatch : job.isPasswordMatch with
    | false => simp [answer, fails, hmatch]
    | true => simp [answer, fails, hmatch]
  | register job =>
    by_cases hresult : tryCreateAccount job.id job.hashedPassword.cString = .success
    · simp [answer, fails, hresult]
    · simp [answer, fails, hresult]

/-- An iteration that finds a job. -/
theorem tickIterate_cons (tryCreateAccount : Bytes → Bytes → CreateAccountResult) {job : AuthJob}
    {rest : List AuthJob} (hq : w.auth.authJobForegroundQueue = job :: rest) :
    (w.tickIterate tryCreateAccount).auth.authJobForegroundQueue = rest ∧
      (w.tickIterate tryCreateAccount).auth.ticking = !fails tryCreateAccount job ∧
      (answers (w.tickIterate tryCreateAccount).history).map Prod.fst =
        (answers w.history).map Prod.fst ++ [job] := by
  obtain ⟨-, hforeground, -, -⟩ :=
    answer_spec { w.auth with authJobForegroundQueue := rest } tryCreateAccount job
  refine ⟨?_, ?_, ?_⟩
  · simpa only [World.tickIterate, hq] using hforeground
  · simp only [World.tickIterate, hq, answer_goesOn]
  · rw [tickIterate_history hq, answers_append, List.map_append]
    rfl

theorem tickLoop_of_not_ticking {databases : Nat → Bytes → Bytes → CreateAccountResult} {fuel : Nat}
    (h : w.auth.ticking = false) : World.tickLoop databases fuel w = w := by
  cases fuel with
  | zero => rfl
  | succ fuel =>
    rw [World.tickLoop, h]
    rfl

/-- The loop ends. It answers the jobs up to the first one that fails. -/
theorem tickLoop_spec {databases : Nat → Bytes → Bytes → CreateAccountResult} {fuel : Nat}
    (hticking : w.auth.ticking = true) (hfuel : w.auth.authJobForegroundQueue.length < fuel) :
    (World.tickLoop databases fuel w).auth.ticking = false ∧
      (Drained w (World.tickLoop databases fuel w) ↔
        FailsLastOnly databases w.auth.authJobForegroundQueue) := by
  induction fuel generalizing w databases with
  | zero => omega
  | succ fuel ih =>
    rw [World.tickLoop, if_pos hticking]
    cases hq : w.auth.authJobForegroundQueue with
    | nil =>
      have hiterate : w.tickIterate (databases 0) = ⟨{ w.auth with ticking := false }, w.history⟩ := by
        simp only [World.tickIterate, hq]
      rw [hiterate, tickLoop_of_not_ticking rfl]
      refine ⟨rfl, fun _ => ?_, fun _ => ⟨hq, by rw [hq, List.append_nil]⟩⟩
      intro k job hjob
      simp at hjob
    | cons job rest =>
      obtain ⟨hrest, hgoes, hanswers⟩ := tickIterate_cons (databases 0) hq
      rw [failsLastOnly_cons]
      cases hfails : fails (databases 0) job with
      | true =>
        -- `Tick` returns; what is behind the job stays in the queue.
        rw [hfails] at hgoes
        rw [tickLoop_of_not_ticking hgoes]
        refine ⟨hgoes, ?_⟩
        simp only [Drained, hrest, hanswers, hq]
        constructor
        · rintro ⟨rfl, -⟩
          refine ⟨fun hne => absurd rfl hne, fun k j hj => ?_⟩
          simp at hj
        · rintro ⟨hfirst, -⟩
          have hnil : rest = [] := by
            by_contra hne
            cases hfirst hne
          rw [hnil]
          exact ⟨rfl, rfl⟩
      | false =>
        rw [hfails] at hgoes
        obtain ⟨hend, hiff⟩ := @ih (w.tickIterate (databases 0)) (fun k => databases (k + 1)) hgoes (by
          rw [hrest]
          rw [hq, List.length_cons] at hfuel
          omega)
        refine ⟨hend, ?_⟩
        rw [hrest] at hiff
        simp only [Drained, hrest, hanswers, List.append_assoc, List.singleton_append] at hiff
        simp only [Drained, hq, hiff, true_and, implies_true]

/-- **Draining.** `Tick` returns; without concurrent pushes it leaves the foreground queue empty, with
all jobs answered, exactly if no job but the last one is a rejected login or a failed registration. -/
theorem tick_drains_iff (w : World) (databases : Nat → Bytes → Bytes → CreateAccountResult) :
    (w.tick databases).auth.ticking = false ∧
      (Drained w (w.tick databases) ↔
        ∀ k job, w.auth.authJobForegroundQueue[k]? = some job →
          k + 1 < w.auth.authJobForegroundQueue.length → fails (databases k) job = false) :=
  tickLoop_spec (w := ⟨{ w.auth with ticking := true }, w.history⟩) rfl (Nat.lt_succ_self _)

/-- A rejected login in front of an accepted one. -/
def rejectedFirst : World where
  auth := { A_Auth.initial with
    authJobForegroundQueue := [.login ⟨1, 7, [], [], false⟩, .login ⟨2, 8, [], [], true⟩] }
  history := []

/-- The login behind the rejected one stays in the queue. -/
theorem not_drained_rejectedFirst :
    ¬ Drained rejectedFirst (rejectedFirst.tick fun _ _ _ => .success) := by
  rintro ⟨hempty, -⟩
  cases hempty

end A_Auth

end RatkiniaServer
