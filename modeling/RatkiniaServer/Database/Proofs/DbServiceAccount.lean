import RatkiniaServer.Actor.Proofs.AuthJobs
import RatkiniaServer.Actor.Proofs.LoginHistory
import RatkiniaServer.Actor.Proofs.Passwords
import RatkiniaServer.Database.DbServiceAccount
import Mathlib.Data.List.Induction
import Mathlib.Data.List.Nodup

/-!
# Accounts and passwords, from the registration to the login

The rows of the table are the successful registrations, each under a name of its own. A login job
carries the password of a row to the background thread and back to `Tick`; by the time it is answered
the row is still there, so the answer tells whether the client knows the password that the account has
been registered with.
-/

namespace RatkiniaServer

open DbService_Account Transition

namespace DbService_Account

variable {rows : List Row} {inserted : Option UInt64} {account password : Bytes}

/-- An account is created under a name that no row has, as the last row; or nothing is. -/
theorem tryCreateAccount_cases (rows : List Row) (inserted : Option UInt64)
    (account password : Bytes) :
    (∃ id, tryCreateAccount rows inserted account password =
        (rows ++ [⟨id, account, password⟩], .success) ∧ account ∉ rows.map Row.account) ∨
      ((tryCreateAccount rows inserted account password).1 = rows ∧
        (tryCreateAccount rows inserted account password).2 ≠ .success) := by
  unfold tryCreateAccount
  split_ifs with hexists
  · exact Or.inr ⟨rfl, nofun⟩
  · cases inserted with
    | none => exact Or.inr ⟨rfl, nofun⟩
    | some id =>
      refine Or.inl ⟨id, rfl, fun hmem => hexists ?_⟩
      obtain ⟨row, hrow, hname⟩ := List.mem_map.mp hmem
      exact List.any_eq_true.mpr ⟨row, hrow, by simpa using hname⟩

/-- The pair found is that of a row. -/
theorem exists_of_getAccountIdPasswordPair {pair : UInt64 × Bytes}
    (h : getAccountIdPasswordPair rows account = some pair) :
    ∃ row ∈ rows, row.account = account ∧ row.id = pair.1 ∧ row.password = pair.2 := by
  obtain ⟨row, hfind, rfl⟩ := Option.map_eq_some_iff.mp h
  exact ⟨row, List.mem_of_find?_eq_some hfind, by simpa using List.find?_some hfind, rfl, rfl⟩

end DbService_Account

namespace AuthService

open A_Auth

variable {b : Bcrypt} {s s' : AuthService} {logins : List LoginRequest} {act : Action} {job : AuthJob}

/-! ## The invariant -/

/-- A registration has passed the checks. -/
def Checked : AuthJob → Prop
  | .login _ => True
  | .register job => registerError job.id job.originalPassword = none

/-- The background thread has executed the job. -/
def Executed (b : Bcrypt) : AuthJob → Prop
  | .login job => (job.isPasswordMatch = true ↔ job.id ≠ LoginJob.invalidId ∧
      b.checkpw job.requestedPassword.cString job.savedPassword.cString = 0)
  | .register job => ∃ salt, b.hashpw job.originalPassword.cString salt = some job.hashedPassword

/-- A login is answered by its result. -/
def AnsweredWell : AuthJob → Response → Prop
  | .login job, response => response = .loginResponse job.context .failure ↔ job.isPasswordMatch = false
  | .register _, _ => True

/-- The invariant. -/
structure Inv (b : Bcrypt) (s : AuthService) : Prop where
  checked : ∀ job ∈ s.world.auth.authJobForegroundQueue ++ s.world.auth.inHand.jobs ++
    s.world.auth.authJobBackgroundQueue, Checked job
  inHand : ∀ job, s.world.auth.inHand = .executed job → Executed b job
  foreground : ∀ job ∈ s.world.auth.authJobForegroundQueue, Executed b job
  answered : ∀ job response, .answered job response ∈ s.world.history →
    Checked job ∧ Executed b job ∧ AnsweredWell job response
  table : s.accounts.map (fun row => (row.account, row.password)) =
    (registrations s.world.history).map fun job => (job.id, job.hashedPassword.cString)
  nodup : (s.accounts.map Row.account).Nodup

theorem inv_initial : Inv b initial := by
  constructor <;> simp [initial, World.initial, A_Auth.initial, InHand.jobs, registrations]

/-! ## Steps -/

/-- A job that is executed has been checked as before. -/
theorem checked_of_execute {salt : Bytes} {job' : AuthJob} (h : Checked job)
    (hexecute : job.executeBackgroundJob b salt = some job') :
    Checked job' ∧ Executed b job' := by
  cases job with
  | login job =>
    obtain rfl := Option.some.inj hexecute
    exact ⟨h, by simp [Executed, LoginJob.executeBackgroundJob]⟩
  | register job =>
    obtain ⟨executed, hexecuted, rfl⟩ := Option.map_eq_some_iff.mp hexecute
    obtain ⟨hash, hhash, rfl⟩ := Option.map_eq_some_iff.mp hexecuted
    exact ⟨h, salt, hhash⟩

/-- A request that becomes a job. -/
theorem checked_onRegisterRequest {context : UInt32} {account password : Bytes}
    (h : onRegisterRequest context account password = .inl job) : Checked job := by
  unfold onRegisterRequest at h
  cases herror : registerError account password with
  | some reason => simp [herror] at h
  | none =>
    simp only [herror, Sum.inl.injEq] at h
    subst h
    exact herror

theorem checked_onLoginRequest {a : A_Auth} {pairOf : Bytes → Option (UInt64 × Bytes)}
    {context : UInt32} {account password : Bytes}
    (h : a.onLoginRequest pairOf context account password = .inl job) : Checked job := by
  unfold onLoginRequest at h
  split_ifs at h
  obtain rfl := Sum.inl.inj h
  trivial

theorem registrations_append (history events : List Event) :
    registrations (history ++ events) = registrations history ++ registrations events :=
  List.filterMap_append

/-- A step that answers no job, and hands the jobs on at most. -/
theorem Inv.of_moves {w : World} (h : Inv b s) (events : List Event)
    (hhistory : w.history = s.world.history ++ events) (hquiet : ∀ e ∈ events, e.answer = none)
    (hchecked : ∀ job ∈ w.auth.authJobForegroundQueue ++ w.auth.inHand.jobs ++
      w.auth.authJobBackgroundQueue, Checked job)
    (hinHand : ∀ job, w.auth.inHand = .executed job → Executed b job)
    (hforeground : ∀ job ∈ w.auth.authJobForegroundQueue, Executed b job) :
    Inv b ⟨w, s.accounts, logins⟩ := by
  have hanswered (job : AuthJob) (response : Response) :
      .answered job response ∈ w.history → .answered job response ∈ s.world.history := by
    intro hmem
    rw [hhistory] at hmem
    obtain hmem | hmem := List.mem_append.mp hmem
    · exact hmem
    · cases hquiet _ hmem
  have hregistrations : registrations events = [] := by
    refine List.filterMap_eq_nil_iff.mpr fun e he => ?_
    have hnone := hquiet e he
    cases e with
    | answered job response => cases hnone
    | _ => rfl
  refine ⟨hchecked, hinHand, hforeground, fun job response hmem => ?_, ?_, h.nodup⟩
  · exact h.answered job response (hanswered job response hmem)
  · rw [hhistory, registrations_append, hregistrations, List.append_nil]
    exact h.table

/-- A step between two requests and answers leaves the history as it is. -/
theorem Inv.of_sameHistory {a : A_Auth} (h : Inv b s)
    (hchecked : ∀ job ∈ a.authJobForegroundQueue ++ a.inHand.jobs ++ a.authJobBackgroundQueue,
      Checked job)
    (hinHand : ∀ job, a.inHand = .executed job → Executed b job)
    (hforeground : ∀ job ∈ a.authJobForegroundQueue, Executed b job) :
    Inv b ⟨⟨a, s.world.history⟩, s.accounts, logins⟩ :=
  h.of_moves [] (List.append_nil _).symm (fun _ hmem => absurd hmem List.not_mem_nil) hchecked hinHand
    hforeground

/-- A request appends its job, if it becomes one, to the background queue. -/
theorem Inv.request {outcome : AuthJob ⊕ List Response} (h : Inv b s)
    (hchecked : ∀ job, outcome = .inl job → Checked job) :
    Inv b ⟨s.world.request outcome, s.accounts, logins⟩ := by
  cases outcome with
  | inl job =>
    refine h.of_moves [.accepted job] rfl (by simp [Event.answer]) ?_ h.inHand h.foreground
    intro job' hmem
    simp only [World.request, pushJob, ← List.append_assoc] at hmem
    obtain hmem | hmem := List.mem_append.mp hmem
    · exact h.checked job' hmem
    · rw [List.mem_singleton.mp hmem]
      exact hchecked job rfl
  | inr responses =>
    exact h.of_moves [.refused responses] rfl (by simp [Event.answer]) h.checked h.inHand h.foreground

/-- What `Tick` does to the job that it has popped. -/
theorem answeredWell_answer (a : A_Auth)
    (tryCreateAccount : Bytes → Bytes → CreateAccountResult) (job : AuthJob) :
    AnsweredWell job (a.answer tryCreateAccount job).2.1 := by
  cases job with
  | register job => trivial
  | login job =>
    cases hmatch : job.isPasswordMatch with
    | false => simp [AnsweredWell, answer, hmatch]
    | true =>
      simp only [AnsweredWell, answer, hmatch, Bool.true_eq_false, if_false, iff_false]
      cases (a.addContext job.context job.id).2 <;> simp [loginResultOf]

/-- A success is sent for a registration exactly if its account has been created. -/
theorem accountsAfter_cases {rest : List AuthJob} (inserted : Option UInt64)
    (hq : s.world.auth.authJobForegroundQueue = job :: rest) (a : A_Auth) :
    let response := (a.answer (fun account password =>
      (tryCreateAccount s.accounts inserted account password).2) job).2.1
    (∃ id registerJob, s.accountsAfter (.tickIterate inserted) =
        s.accounts ++ [⟨id, registerJob.id, registerJob.hashedPassword.cString⟩] ∧
      registerJob.id ∉ s.accounts.map Row.account ∧
      registration (.answered job response) = some registerJob) ∨
    (s.accountsAfter (.tickIterate inserted) = s.accounts ∧
      registration (.answered job response) = none) := by
  cases job with
  | login job =>
    refine Or.inr ⟨by simp [accountsAfter, hq], ?_⟩
    simp only [answer]
    split_ifs <;> rfl
  | register registerJob =>
    obtain ⟨id, hcreated, hnew⟩ | ⟨hrows, hresult⟩ := tryCreateAccount_cases s.accounts inserted
      registerJob.id registerJob.hashedPassword.cString
    · refine Or.inl ⟨id, registerJob, by simp [accountsAfter, hq, hcreated], hnew, ?_⟩
      simp [answer, hcreated, registration]
    · refine Or.inr ⟨by simp [accountsAfter, hq, hrows], ?_⟩
      simp [answer, hresult, registration]

/-- An iteration of `Tick` that finds a job in the foreground queue. -/
theorem Inv.answer {rest : List AuthJob} (h : Inv b s) (inserted : Option UInt64)
    (hq : s.world.auth.authJobForegroundQueue = job :: rest) :
    Inv b ⟨s.world.tickIterate fun account password =>
      (tryCreateAccount s.accounts inserted account password).2,
      s.accountsAfter (.tickIterate inserted), logins⟩ := by
  set tryCreate := fun account password =>
    (tryCreateAccount s.accounts inserted account password).2 with htry
  obtain ⟨hresponse, hforeground, hbackground, hinHand⟩ :=
    answer_spec { s.world.auth with authJobForegroundQueue := rest } tryCreate job
  have hwell := answeredWell_answer { s.world.auth with authJobForegroundQueue := rest } tryCreate job
  have hhistory : (s.world.tickIterate tryCreate).history = s.world.history ++ [.answered job
      ({ s.world.auth with authJobForegroundQueue := rest }.answer tryCreate job).2.1] :=
    tickIterate_history hq
  generalize hr : ({ s.world.auth with authJobForegroundQueue := rest }.answer tryCreate job).2.1 =
    response at hresponse hwell hhistory
  have hauth : (s.world.tickIterate tryCreate).auth.authJobForegroundQueue = rest ∧
      (s.world.tickIterate tryCreate).auth.inHand = s.world.auth.inHand ∧
      (s.world.tickIterate tryCreate).auth.authJobBackgroundQueue =
        s.world.auth.authJobBackgroundQueue := by
    simp only [World.tickIterate, hq]
    exact ⟨hforeground, hinHand, hbackground⟩
  have hchecked := h.checked job (by simp [hq])
  have hexecuted := h.foreground job (by simp [hq])
  have hcases := accountsAfter_cases inserted hq { s.world.auth with authJobForegroundQueue := rest }
  simp only [← htry, hr] at hcases
  constructor
  · intro job' hmem
    rw [hauth.1, hauth.2.1, hauth.2.2] at hmem
    refine h.checked job' ?_
    rw [hq]
    exact List.mem_cons_of_mem _ hmem
  · rw [hauth.2.1]
    exact h.inHand
  · intro job' hmem
    rw [hauth.1] at hmem
    refine h.foreground job' ?_
    rw [hq]
    exact List.mem_cons_of_mem _ hmem
  · intro job' response' hmem
    rw [hhistory] at hmem
    obtain hmem | hmem := List.mem_append.mp hmem
    · exact h.answered job' response' hmem
    · obtain ⟨rfl, rfl⟩ : job' = job ∧ response' = response := by simpa using hmem
      exact ⟨hchecked, hexecuted, hwell⟩
  · rw [hhistory, registrations_append]
    obtain ⟨id, registerJob, hrows, -, hregistration⟩ | ⟨hrows, hregistration⟩ := hcases
    · rw [hrows, List.map_append, List.map_append, h.table]
      simp [registrations, hregistration]
    · rw [hrows, h.table]
      simp [registrations, hregistration]
  · obtain ⟨id, registerJob, hrows, hnew, -⟩ | ⟨hrows, -⟩ := hcases
    · rw [hrows, List.map_append]
      exact h.nodup.append (List.nodup_singleton _) (List.disjoint_singleton.mpr hnew)
    · rw [hrows]
      exact h.nodup

/-- Every step keeps the invariant. -/
theorem inv_step (h : Inv b s) (hstep : step b s act = some s') : Inv b s' := by
  obtain ⟨w, hw, rfl⟩ := Option.map_eq_some_iff.mp hstep
  cases act with
  | registerRequest context account password =>
    simp only [Action.ofActor, A_Auth.step] at hw
    split_ifs at hw
    obtain rfl := Option.some.inj hw
    exact h.request fun job hjob => checked_onRegisterRequest hjob
  | loginRequest context account password =>
    simp only [Action.ofActor, A_Auth.step] at hw
    split_ifs at hw
    obtain rfl := Option.some.inj hw
    exact h.request fun job hjob => checked_onLoginRequest hjob
  | sessionDisconnected context =>
    simp only [Action.ofActor, A_Auth.step] at hw
    split_ifs at hw
    obtain rfl := Option.some.inj hw
    have hsame : (s.world.auth.handleSessionDisconnected context).authJobForegroundQueue =
        s.world.auth.authJobForegroundQueue ∧
        (s.world.auth.handleSessionDisconnected context).inHand = s.world.auth.inHand ∧
        (s.world.auth.handleSessionDisconnected context).authJobBackgroundQueue =
          s.world.auth.authJobBackgroundQueue := by
      unfold handleSessionDisconnected
      cases s.world.auth.contextIdMap context <;> exact ⟨rfl, rfl, rfl⟩
    refine h.of_moves [.disconnected context] rfl (by simp [Event.answer]) ?_ ?_ ?_
    · rw [hsame.1, hsame.2.1, hsame.2.2]
      exact h.checked
    · rw [hsame.2.1]
      exact h.inHand
    · rw [hsame.1]
      exact h.foreground
  | tickBegin =>
    simp only [Action.ofActor, A_Auth.step] at hw
    split_ifs at hw
    obtain rfl := Option.some.inj hw
    exact h.of_sameHistory h.checked h.inHand h.foreground
  | tickIterate inserted =>
    simp only [Action.ofActor, A_Auth.step] at hw
    split_ifs at hw
    obtain rfl := Option.some.inj hw
    cases hq : s.world.auth.authJobForegroundQueue with
    | nil =>
      have hsame : s.accountsAfter (.tickIterate inserted) = s.accounts := by
        simp [accountsAfter, hq]
      have hworld : s.world.tickIterate (fun account password =>
          (tryCreateAccount s.accounts inserted account password).2) =
          ⟨{ s.world.auth with ticking := false }, s.world.history⟩ := by
        simp [World.tickIterate, hq]
      rw [hsame, hworld]
      exact h.of_sameHistory h.checked h.inHand h.foreground
    | cons job rest => exact h.answer inserted hq
  | backgroundTake =>
    simp only [Action.ofActor, A_Auth.step] at hw
    cases hhand : s.world.auth.inHand with
    | taken job => simp [hhand] at hw
    | executed job => simp [hhand] at hw
    | nothing =>
      simp only [hhand, Option.some.injEq] at hw
      subst hw
      cases hq : s.world.auth.authJobBackgroundQueue with
      | nil =>
        have hsame : s.world.auth.backgroundTake = s.world.auth := by simp [A_Auth.backgroundTake, hq]
        rw [hsame]
        exact h
      | cons job rest =>
        have htaken : s.world.auth.backgroundTake =
            { s.world.auth with authJobBackgroundQueue := rest, inHand := .taken job } := by
          simp [A_Auth.backgroundTake, hq]
        rw [htaken]
        refine h.of_sameHistory ?_ (fun _ hjob' => InHand.noConfusion hjob') h.foreground
        have hchecked := h.checked
        simpa [hhand, hq, InHand.jobs] using hchecked
  | backgroundExecute salt =>
    simp only [Action.ofActor, A_Auth.step] at hw
    cases hhand : s.world.auth.inHand with
    | nothing => simp [hhand] at hw
    | executed job => simp [hhand] at hw
    | taken job =>
      simp only [hhand] at hw
      obtain ⟨a, ha, rfl⟩ := Option.map_eq_some_iff.mp hw
      obtain ⟨executed, hexecuted, rfl⟩ := Option.map_eq_some_iff.mp ha
      obtain ⟨hchecked, hdone⟩ :=
        checked_of_execute (h.checked job (by simp [hhand, InHand.jobs])) hexecuted
      refine h.of_sameHistory ?_ ?_ h.foreground
      · intro job' hmem
        simp only [InHand.jobs, List.mem_append, List.mem_singleton] at hmem
        obtain (hmem | rfl) | hmem := hmem
        · exact h.checked job' (by simp [hmem])
        · exact hchecked
        · exact h.checked job' (by simp [hmem])
      · intro job' hjob'
        obtain rfl := InHand.executed.inj hjob'
        exact hdone
  | backgroundPush =>
    simp only [Action.ofActor, A_Auth.step] at hw
    cases hhand : s.world.auth.inHand with
    | nothing => simp [hhand] at hw
    | taken job => simp [hhand] at hw
    | executed job =>
      simp only [hhand, Option.some.injEq] at hw
      subst hw
      refine h.of_sameHistory ?_ (fun _ hjob' => InHand.noConfusion hjob') ?_
      · have hchecked := h.checked
        simpa [A_Auth.backgroundPush, hhand, InHand.jobs] using hchecked
      · intro job' hmem
        simp only [A_Auth.backgroundPush, List.mem_append, List.mem_singleton] at hmem
        obtain hmem | rfl := hmem
        · exact h.foreground job' hmem
        · exact h.inHand job' hhand

/-! ## Runs -/

theorem inv_of_reachable (hs : Reachable (step b) initial s) : Inv b s :=
  hs.invariant (fun _ _ _ h hstep => inv_step h hstep) inv_initial

/-- What `A_Auth` does with its database is something that it does with some database. -/
theorem reachable_world (hs : Reachable (step b) initial s) :
    Reachable (A_Auth.step b) World.initial s.world := by
  refine hs.map AuthService.world fun s act s' hstep => ?_
  obtain ⟨w, hw, rfl⟩ := Option.map_eq_some_iff.mp hstep
  exact Reachable.next (.refl _) hw

theorem mem_registrations {history : List Event} {job : RegisterJob}
    (h : job ∈ registrations history) :
    ∃ response, .answered (.register job) response ∈ history := by
  obtain ⟨e, he, hjob⟩ := List.mem_filterMap.mp h
  unfold registration at hjob
  split at hjob
  · cases hjob
    exact ⟨_, he⟩
  · cases hjob

/-- A job that has been answered had been accepted. -/
theorem accepted_of_answered {response : Response} (hs : Reachable (step b) initial s)
    (hanswered : .answered job response ∈ s.world.history) :
    .accepted job.asAccepted ∈ s.world.history := by
  have hworld : Accounted s.world :=
    (reachable_world hs).invariant (fun _ _ _ => accounted_step)
      ⟨rfl, by simp [World.initial, answers]⟩
  have hmem : (job, response) ∈ answers s.world.history :=
    List.mem_filterMap.mpr ⟨_, hanswered, rfl⟩
  have haccepted : job.asAccepted ∈ acceptedJobs s.world.history := by
    rw [hworld.jobs_eq]
    refine List.mem_map_of_mem ?_
    unfold World.jobs
    simp only [List.append_assoc, List.mem_append]
    exact Or.inl (List.mem_map.mpr ⟨_, hmem, rfl⟩)
  obtain ⟨e, he, hjob⟩ := List.mem_filterMap.mp haccepted
  cases e with
  | accepted job' =>
    obtain rfl := Option.some.inj hjob
    exact he
  | _ => cases hjob

/-- A successful registration had been requested, with a name and a password that pass the checks; its
password has been hashed. -/
theorem requested_of_registration (hs : Reachable (step b) initial s) {job : RegisterJob}
    (hjob : job ∈ registrations s.world.history) :
    .accepted (.register { job with hashedPassword := [] }) ∈ s.world.history ∧
      registerError job.id job.originalPassword = none ∧
      ∃ salt, b.hashpw job.originalPassword.cString salt = some job.hashedPassword := by
  obtain ⟨response, hanswered⟩ := mem_registrations hjob
  obtain ⟨hchecked, hexecuted, -⟩ := (inv_of_reachable hs).answered _ _ hanswered
  exact ⟨accepted_of_answered hs hanswered, hchecked, hexecuted⟩

/-! ## The answers of the database -/

/-- The login that a job is for. -/
def loginOf : AuthJob → Option LoginJob
  | .login job => some job
  | .register _ => none

/-- The login jobs that have been accepted, in order. -/
def acceptedLogins (history : List Event) : List LoginJob :=
  (acceptedJobs history).filterMap loginOf

theorem acceptedLogins_append (history events : List Event) :
    acceptedLogins (history ++ events) = acceptedLogins history ++ acceptedLogins events := by
  simp only [acceptedLogins, acceptedJobs_append, List.filterMap_append]

/-- A registration is answered with `DuplicateId`. -/
def refusal (job : RegisterJob) : Response :=
  .registerResponse job.context false (failedReason .duplicateId)

/-- What a step asks of the database: nothing, the row of a login, or to insert that of a
registration. -/
inductive Asks (s s' : AuthService) : Prop
  | nothing (events : List Event) (hhistory : s'.world.history = s.world.history ++ events)
      (haccepted : acceptedLogins events = [])
      (hanswered : ∀ job response, .answered (.register job) response ∉ events)
      (haccounts : s'.accounts = s.accounts) (hlogins : s'.logins = s.logins)
  | row (r : LoginRequest) (hrows : r.rows = s.accounts.length)
      (hhistory : s'.world.history = s.world.history ++ [.accepted (.login (loginJob s.accounts r))])
      (haccounts : s'.accounts = s.accounts) (hlogins : s'.logins = s.logins ++ [r])
  | insert (job : RegisterJob) (response : Response)
      (hhistory : s'.world.history = s.world.history ++ [.answered (.register job) response])
      (hduplicate : response = refusal job ↔ job.id ∈ s.accounts.map Row.account)
      (haccounts : s.accounts <+: s'.accounts) (hlogins : s'.logins = s.logins)

theorem Asks.of_sameHistory (hhistory : s'.world.history = s.world.history)
    (haccounts : s'.accounts = s.accounts) (hlogins : s'.logins = s.logins) : Asks s s' :=
  .nothing [] (hhistory.trans (List.append_nil _).symm) rfl (fun _ _ => List.not_mem_nil) haccounts
    hlogins

theorem Asks.of_event {e : Event} (hhistory : s'.world.history = s.world.history ++ [e])
    (haccepted : acceptedLogins [e] = [])
    (hanswered : ∀ job response, .answered (.register job) response ≠ e)
    (haccounts : s'.accounts = s.accounts) (hlogins : s'.logins = s.logins) : Asks s s' := by
  refine .nothing [e] hhistory haccepted (fun job response hmem => ?_) haccounts hlogins
  exact hanswered job response (List.mem_singleton.mp hmem)

/-- `TryCreateAccount` finds a name that has been registered, and the answer says so. -/
theorem answer_register (a : A_Auth) (rows : List Row) (inserted : Option UInt64) (job : RegisterJob) :
    (a.answer (fun account password => (tryCreateAccount rows inserted account password).2)
        (.register job)).2.1 = refusal job ↔ job.id ∈ rows.map Row.account := by
  have hany : (rows.any fun row => row.account = job.id) = true ↔ job.id ∈ rows.map Row.account := by
    simp [List.any_eq_true]
  by_cases hexists : (rows.any fun row => row.account = job.id) = true
  · simp [answer, tryCreateAccount, hexists, refusal, ← hany]
  · rw [← hany]
    cases inserted <;> simp [answer, tryCreateAccount, hexists, refusal, failedReason]

theorem accounts_isPrefix (inserted : Option UInt64) :
    s.accounts <+: s.accountsAfter (.tickIterate inserted) := by
  cases hq : s.world.auth.authJobForegroundQueue with
  | nil => simp [accountsAfter, hq]
  | cons job rest =>
    obtain ⟨id, registerJob, hrows, -⟩ | ⟨hrows, -⟩ := accountsAfter_cases inserted hq s.world.auth
    · exact hrows ▸ List.prefix_append _ _
    · exact hrows ▸ List.prefix_refl _

theorem asks_of_step (hstep : step b s act = some s') : Asks s s' := by
  obtain ⟨w, hw, rfl⟩ := Option.map_eq_some_iff.mp hstep
  cases act with
  | registerRequest context account password =>
    simp only [Action.ofActor, A_Auth.step] at hw
    split_ifs at hw
    obtain rfl := Option.some.inj hw
    cases houtcome : onRegisterRequest context account password with
    | inl job =>
      refine .of_event (e := .accepted job) rfl ?_ (fun _ _ => Event.noConfusion) rfl rfl
      unfold onRegisterRequest at houtcome
      split at houtcome
      · cases houtcome
      · obtain rfl := Sum.inl.inj houtcome
        rfl
    | inr responses =>
      exact .of_event (e := .refused responses) rfl rfl (fun _ _ => Event.noConfusion) rfl rfl
  | loginRequest context account password =>
    simp only [Action.ofActor, A_Auth.step] at hw
    split_ifs at hw
    obtain rfl := Option.some.inj hw
    cases honline : s.world.auth.contextIdMap context with
    | some id =>
      obtain ⟨responses, hrefused⟩ : ∃ responses, s.world.auth.onLoginRequest
          (getAccountIdPasswordPair s.accounts) context account password = .inr responses := by
        simp [onLoginRequest, honline]
      refine .of_event (e := .refused responses) ?_ rfl (fun _ _ => Event.noConfusion) rfl ?_
      · simp only [hrefused, World.request]
      · simp only [loginsAfter, honline]
    | none =>
      refine .row ⟨context, account, password, s.accounts.length⟩ rfl ?_ rfl ?_
      · simp [onLoginRequest, honline, World.request, loginJob]
      · simp only [loginsAfter, honline]
  | sessionDisconnected context =>
    simp only [Action.ofActor, A_Auth.step] at hw
    split_ifs at hw
    obtain rfl := Option.some.inj hw
    exact .of_event (e := .disconnected context) rfl rfl (fun _ _ => Event.noConfusion) rfl rfl
  | tickBegin =>
    simp only [Action.ofActor, A_Auth.step] at hw
    split_ifs at hw
    obtain rfl := Option.some.inj hw
    exact .of_sameHistory rfl rfl rfl
  | tickIterate inserted =>
    simp only [Action.ofActor, A_Auth.step] at hw
    split_ifs at hw
    obtain rfl := Option.some.inj hw
    cases hq : s.world.auth.authJobForegroundQueue with
    | nil => exact .of_sameHistory (by simp [World.tickIterate, hq]) (by simp [accountsAfter, hq]) rfl
    | cons job rest =>
      cases job with
      | login job =>
        exact .of_event (tickIterate_history hq) rfl
          (fun _ _ h => AuthJob.noConfusion (Event.answered.inj h).1) (by simp [accountsAfter, hq]) rfl
      | register job =>
        exact .insert job _ (tickIterate_history hq) (answer_register _ _ inserted job)
          (accounts_isPrefix inserted) rfl
  | backgroundTake =>
    simp only [Action.ofActor, A_Auth.step] at hw
    split at hw
    · obtain rfl := Option.some.inj hw
      exact .of_sameHistory rfl rfl rfl
    · cases hw
  | backgroundExecute salt =>
    simp only [Action.ofActor, A_Auth.step] at hw
    split at hw
    · obtain ⟨a, -, rfl⟩ := Option.map_eq_some_iff.mp hw
      exact .of_sameHistory rfl rfl rfl
    · cases hw
  | backgroundPush =>
    simp only [Action.ofActor, A_Auth.step] at hw
    split at hw
    · obtain rfl := Option.some.inj hw
      exact .of_sameHistory rfl rfl rfl
    · cases hw

/-- A registration has been refused as a duplicate exactly if one of its name had been successful. -/
def RefusesDuplicates (history : List Event) : Prop :=
  ∀ before after job response, history = before ++ .answered (.register job) response :: after →
    (response = refusal job ↔ job.id ∈ (registrations before).map RegisterJob.id)

/-- The database has answered from the table: the jobs of the logins are those of the requests, and
duplicates have been refused. -/
structure FromTable (s : AuthService) : Prop where
  logins : acceptedLogins s.world.history = s.logins.map (loginJob s.accounts)
  rows_le : ∀ r ∈ s.logins, r.rows ≤ s.accounts.length
  duplicates : RefusesDuplicates s.world.history

theorem fromTable_initial : FromTable initial where
  logins := rfl
  rows_le := nofun
  duplicates before after job response h := by simp [initial, World.initial] at h

/-- Rows that are appended do not change the job of a login. -/
theorem loginJob_append {rows rows' : List Row} {r : LoginRequest} (hrows : r.rows ≤ rows.length)
    (happend : rows <+: rows') : loginJob rows' r = loginJob rows r := by
  obtain ⟨new, rfl⟩ := happend
  rw [loginJob, List.take_append_of_le_length hrows, loginJob]

theorem FromTable.logins_append {rows : List Row} (h : FromTable s) (happend : s.accounts <+: rows) :
    s.logins.map (loginJob rows) = s.logins.map (loginJob s.accounts) :=
  List.map_congr_left fun r hr => loginJob_append (h.rows_le r hr) happend

/-- Events that answer no registration. -/
theorem RefusesDuplicates.append {history events : List Event} (h : RefusesDuplicates history)
    (hquiet : ∀ job response, .answered (.register job) response ∉ events) :
    RefusesDuplicates (history ++ events) := by
  induction events using List.reverseRecOn with
  | nil => rwa [List.append_nil]
  | append_singleton events e ih =>
    intro before after job response hsplit
    rw [← List.append_assoc] at hsplit
    obtain rfl | ⟨after', e', rfl⟩ := List.eq_nil_or_concat after
    · obtain ⟨-, he⟩ := List.append_inj' hsplit rfl
      obtain rfl := List.singleton_inj.mp he
      exact absurd (List.mem_append_right _ (List.mem_singleton_self _)) (hquiet job response)
    · rw [List.concat_eq_append, ← List.cons_append, ← List.append_assoc] at hsplit
      refine ih (fun job response hmem => ?_) before after' job response (List.append_inj' hsplit rfl).1
      exact hquiet job response (List.mem_append_left _ hmem)

/-- The answer to a registration. -/
theorem RefusesDuplicates.answered {history : List Event} {job : RegisterJob} {response : Response}
    (h : RefusesDuplicates history)
    (hduplicate : response = refusal job ↔ job.id ∈ (registrations history).map RegisterJob.id) :
    RefusesDuplicates (history ++ [.answered (.register job) response]) := by
  intro before after job' response' hsplit
  obtain rfl | ⟨after', e', rfl⟩ := List.eq_nil_or_concat after
  · obtain ⟨rfl, he⟩ := List.append_inj' hsplit rfl
    obtain ⟨hjob, rfl⟩ := Event.answered.inj (List.singleton_inj.mp he)
    obtain rfl := AuthJob.register.inj hjob
    exact hduplicate
  · rw [List.concat_eq_append, ← List.cons_append, ← List.append_assoc] at hsplit
    exact h before after' job' response' (List.append_inj' hsplit rfl).1

theorem fromTable_step (hinv : Inv b s) (h : FromTable s) (hstep : step b s act = some s') :
    FromTable s' := by
  cases asks_of_step hstep with
  | nothing events hhistory haccepted hanswered haccounts hlogins =>
    refine ⟨?_, ?_, ?_⟩
    · rw [hhistory, acceptedLogins_append, haccepted, List.append_nil, hlogins, haccounts]
      exact h.logins
    · rw [hlogins, haccounts]
      exact h.rows_le
    · rw [hhistory]
      exact h.duplicates.append hanswered
  | row r hrows hhistory haccounts hlogins =>
    refine ⟨?_, ?_, ?_⟩
    · rw [hhistory, acceptedLogins_append, h.logins, hlogins, haccounts, List.map_append]
      rfl
    · intro r' hmem
      rw [hlogins, List.mem_append, List.mem_singleton] at hmem
      rw [haccounts]
      obtain hmem | rfl := hmem
      · exact h.rows_le r' hmem
      · exact hrows.le
    · rw [hhistory]
      exact h.duplicates.append (by simp)
  | insert job response hhistory hduplicate haccounts hlogins =>
    refine ⟨?_, ?_, ?_⟩
    · rw [hhistory, acceptedLogins_append, hlogins, h.logins_append haccounts, h.logins]
      exact List.append_nil _
    · intro r hmem
      rw [hlogins] at hmem
      exact (h.rows_le r hmem).trans haccounts.length_le
    · rw [hhistory]
      refine h.duplicates.answered (hduplicate.trans ?_)
      have hnames := congrArg (List.map Prod.fst) hinv.table
      simp only [List.map_map, Function.comp_def] at hnames
      exact iff_of_eq (congrArg (job.id ∈ ·) hnames)

theorem fromTable_of_reachable (hs : Reachable (step b) initial s) : FromTable s :=
  (hs.invariant (P := fun s => Inv b s ∧ FromTable s)
    (fun _ _ _ h hstep => ⟨inv_step h.1 hstep, fromTable_step h.1 h.2 hstep⟩)
    ⟨inv_initial, fromTable_initial⟩).2

/-- **The accounts are the successful registrations.** In every state of every run of `A_Auth` with its
database, the rows of the table are, in order, the registrations that have been answered with a
success, each under a name of its own and with the hash of its password; each had been requested, with
a name and a password that pass the checks. What the database has answered is what the table tells: a
registration has been refused as a duplicate exactly if one of its name had been successful before, and
the login jobs are those that the rows make of the requests. The run is one of `A_Auth` with some
database. -/
theorem accounts_eq_registrations (hs : Reachable (step b) initial s) :
    s.accounts.map (fun row => (row.account, row.password)) =
        (registrations s.world.history).map (fun job => (job.id, job.hashedPassword.cString)) ∧
      (s.accounts.map Row.account).Nodup ∧
      (∀ job ∈ registrations s.world.history,
        .accepted (.register { job with hashedPassword := [] }) ∈ s.world.history ∧
        registerError job.id job.originalPassword = none ∧
        ∃ salt, b.hashpw job.originalPassword.cString salt = some job.hashedPassword) ∧
      RefusesDuplicates s.world.history ∧
      acceptedLogins s.world.history = s.logins.map (loginJob s.accounts) ∧
      Reachable (A_Auth.step b) World.initial s.world := by
  have h := inv_of_reachable hs
  have htable := fromTable_of_reachable hs
  exact ⟨h.table, h.nodup, fun _ => requested_of_registration hs, htable.duplicates, htable.logins,
    reachable_world hs⟩

/-- An account is registered, its owner logs in, and its name is registered again. -/
def registerAndLogin : List Action :=
  let process (inserted : Option UInt64) := [Action.backgroundTake, .backgroundExecute [],
    .backgroundPush, .tickBegin, .tickIterate inserted]
  let register := Action.registerRequest 1 (List.replicate 6 97) (List.replicate 8 97)
  [register] ++ process (some 7) ++ [.tickIterate none] ++
    [.loginRequest 2 (List.replicate 6 97) (List.replicate 8 97)] ++ process none ++
    [.tickIterate none] ++ [register] ++ process (some 8)

theorem accounts_eq_registrations_registerAndLogin :
    ∃ s, Transition.run (step plainBcrypt) initial registerAndLogin = some s ∧
      s.accounts.length = 1 ∧ (s.accounts.map Row.account).Nodup ∧
      s.world.history.length = 6 ∧ RefusesDuplicates s.world.history := by
  obtain ⟨s, hrun, hlength, hhistory⟩ : ∃ s,
      Transition.run (step plainBcrypt) initial registerAndLogin = some s ∧
      s.accounts.length = 1 ∧ s.world.history.length = 6 := ⟨_, rfl, rfl, rfl⟩
  obtain ⟨-, hnodup, -, hduplicates, -⟩ := accounts_eq_registrations ⟨registerAndLogin, hrun⟩
  exact ⟨s, hrun, hlength, hnodup, hhistory, hduplicates⟩

end AuthService

end RatkiniaServer
