import RatkiniaServer.Database.Proofs.DbServiceAccount

/-!
# Passwords, from the registration to the login

A login job carries the id and the password of the row that its account name had when the request came
to the background thread and back to `Tick`. Rows stay as they are, and jobs are answered in the order of
the requests; so an answer tells whether the client knows the password that the account has been
registered with.
-/

namespace RatkiniaServer.AuthService

open A_Auth DbService_Account Transition

variable {b : Bcrypt} {s : AuthService}

/-- The login jobs that have been answered, with the answers, in order. -/
def loginAnswers (history : List Event) : List (LoginJob × Response) :=
  (answers history).filterMap fun answer => (loginOf answer.1).map (·, answer.2)

/-! ## The request of an answer -/

theorem loginOf_asAccepted (job : AuthJob) :
    loginOf job.asAccepted = (loginOf job).map fun login => { login with isPasswordMatch := false } := by
  cases job <;> rfl

/-- Logins are answered in the order in which they have been accepted. -/
theorem loginAnswers_prefix (h : Accounted s.world) :
    (loginAnswers s.world.history).map (fun answer => { answer.1 with isPasswordMatch := false }) <+:
      acceptedLogins s.world.history := by
  have hanswers : (loginAnswers s.world.history).map
      (fun answer => { answer.1 with isPasswordMatch := false }) =
      (((answers s.world.history).map Prod.fst).map AuthJob.asAccepted).filterMap loginOf := by
    rw [loginAnswers, List.map_filterMap, List.map_map, List.filterMap_map]
    refine List.filterMap_congr fun answer _ => ?_
    simp only [Function.comp_apply, loginOf_asAccepted, Option.map_map]
    rfl
  rw [hanswers, acceptedLogins, h.jobs_eq, World.jobs, List.append_assoc, List.append_assoc,
    List.map_append, List.filterMap_append]
  exact List.prefix_append _ _

/-- The request that an answer is for. -/
theorem exists_request (hs : Reachable (step b) initial s) {i : Nat} {job : LoginJob}
    {response : Response} (h : (loginAnswers s.world.history)[i]? = some (job, response)) :
    ∃ r, s.logins[i]? = some r ∧ loginJob s.accounts r = { job with isPasswordMatch := false } := by
  have haccounted : Accounted s.world :=
    (reachable_world hs).invariant (fun _ _ _ => accounted_step)
      ⟨rfl, by simp [World.initial, answers]⟩
  have haccepted : (acceptedLogins s.world.history)[i]? =
      some { job with isPasswordMatch := false } := by
    obtain ⟨later, hlater⟩ := loginAnswers_prefix haccounted
    have hlt : i < (loginAnswers s.world.history).length := List.getElem?_eq_some_iff.mp h |>.1
    rw [← hlater, List.getElem?_append_left (by rwa [List.length_map]), List.getElem?_map, h,
      Option.map_some]
  rw [(fromTable_of_reachable hs).logins, List.getElem?_map, Option.map_eq_some_iff] at haccepted
  exact haccepted

theorem mem_answers_of_loginAnswers {history : List Event} {job : LoginJob} {response : Response}
    (h : (job, response) ∈ loginAnswers history) : .answered (.login job) response ∈ history := by
  obtain ⟨⟨answered, response'⟩, hanswer, hlogin⟩ := List.mem_filterMap.mp h
  obtain ⟨job', hjob, heq⟩ := Option.map_eq_some_iff.mp hlogin
  obtain ⟨rfl, rfl⟩ := Prod.mk.inj heq
  obtain ⟨e, he, hevent⟩ := List.mem_filterMap.mp hanswer
  cases e with
  | answered job response =>
    obtain ⟨rfl, rfl⟩ := Prod.mk.inj (Option.some.inj hevent)
    cases job with
    | login job =>
      obtain rfl := Option.some.inj hjob
      exact he
    | register job => cases hjob
  | _ => cases hevent

theorem mem_loginAnswers {history : List Event} {job : LoginJob} {response : Response}
    (h : .answered (.login job) response ∈ history) : (job, response) ∈ loginAnswers history :=
  List.mem_filterMap.mpr ⟨(.login job, response), List.mem_filterMap.mpr ⟨_, h, rfl⟩, rfl⟩

/-! ## Passwords -/

/-- The password that opens a row is the one that its name has been registered with. -/
theorem checkpw_iff (hb : b.Correct) (hs : Reachable (step b) initial s) {row : Row}
    (hrow : row ∈ s.accounts) (p : Bytes) : b.checkpw p row.password.cString = 0 ↔
      ∃ registered ∈ registrations s.world.history,
        registered.id = row.account ∧ registered.originalPassword = p := by
  have hinv := inv_of_reachable hs
  have hmem : (row.account, row.password) ∈ (registrations s.world.history).map
      (fun job => (job.id, job.hashedPassword.cString)) := by
    rw [← hinv.table]
    exact List.mem_map_of_mem hrow
  obtain ⟨registered, hregistered, heq⟩ := List.mem_map.mp hmem
  obtain ⟨hid, hpassword⟩ := Prod.mk.inj heq
  obtain ⟨-, herror, salt, hhash⟩ := requested_of_registration hs hregistered
  obtain ⟨hcstring, hlength⟩ := password_of_registerError herror
  rw [hcstring] at hhash
  have hcheck : b.checkpw p row.password.cString = 0 ↔ p = registered.originalPassword := by
    rw [← hpassword, cString_cString]
    exact hb _ salt _ hcstring (by omega) hhash p
  rw [hcheck]
  constructor
  · rintro rfl
    exact ⟨registered, hregistered, hid, rfl⟩
  · rintro ⟨other, hother, hname, rfl⟩
    -- no name has been registered twice
    have hnames : ((registrations s.world.history).map RegisterJob.id).Nodup := by
      have heq := congrArg (List.map Prod.fst) hinv.table
      simp only [List.map_map, Function.comp_def] at heq
      exact heq ▸ hinv.nodup
    rw [List.inj_on_of_nodup_map hnames hother hregistered (hname.trans hid.symm)]

/-- A row of the name is the one that is found. -/
theorem getAccountIdPasswordPair_eq {rows : List Row} {row : Row}
    (hnodup : (rows.map Row.account).Nodup) (hrow : row ∈ rows) :
    getAccountIdPasswordPair rows row.account = some (row.id, row.password) := by
  cases hpair : getAccountIdPasswordPair rows row.account with
  | none =>
    rw [getAccountIdPasswordPair, Option.map_eq_none_iff, List.find?_eq_none] at hpair
    exact absurd (by simp) (hpair row hrow)
  | some pair =>
    obtain ⟨found, hfound, hname, hid, hpassword⟩ := exists_of_getAccountIdPasswordPair hpair
    obtain rfl := List.inj_on_of_nodup_map hnodup hfound hrow hname
    rw [hid, hpassword]

/-- A login job is executed with success exactly if its request opens the account of the job. -/
theorem isPasswordMatch_iff_opens (hb : b.Correct) (hs : Reachable (step b) initial s)
    {r : LoginRequest} {job : LoginJob} (hexecuted : Executed b (.login job))
    (hjob : loginJob s.accounts r = { job with isPasswordMatch := false }) (id : UInt64) :
    job.isPasswordMatch = true ∧ job.id = id ↔ s.Opens r id := by
  have hrows : (s.accounts.take r.rows).Sublist s.accounts := List.take_sublist _ _
  have hnodup : ((s.accounts.take r.rows).map Row.account).Nodup :=
    (inv_of_reachable hs).nodup.sublist (hrows.map _)
  have hpassword : job.requestedPassword = r.password := by
    have heq := congrArg LoginJob.requestedPassword hjob
    unfold loginJob loginJobOf at heq
    split at heq <;> exact heq.symm
  simp only [Executed, hpassword] at hexecuted
  rw [hexecuted]
  constructor
  · rintro ⟨⟨hvalid, hcheck⟩, rfl⟩
    cases hpair : getAccountIdPasswordPair (s.accounts.take r.rows) r.account with
    | none =>
      rw [loginJob, hpair] at hjob
      exact absurd (congrArg LoginJob.id hjob).symm hvalid
    | some pair =>
      obtain ⟨row, hrow, hname, hid, hsaved⟩ := exists_of_getAccountIdPasswordPair hpair
      rw [loginJob, hpair] at hjob
      have hjobId : row.id = job.id := hid.trans (congrArg LoginJob.id hjob)
      have hjobSaved : row.password = job.savedPassword :=
        hsaved.trans (congrArg LoginJob.savedPassword hjob)
      rw [← hjobSaved, checkpw_iff hb hs (hrows.subset hrow)] at hcheck
      exact ⟨hvalid, ⟨row, hrow, hname, hjobId⟩, hname ▸ hcheck⟩
  · rintro ⟨hvalid, ⟨row, hrow, hname, rfl⟩, hregistered⟩
    have hpair := getAccountIdPasswordPair_eq hnodup hrow
    rw [hname] at hpair
    rw [loginJob, hpair] at hjob
    have hjobId : row.id = job.id := congrArg LoginJob.id hjob
    have hjobSaved : row.password = job.savedPassword := congrArg LoginJob.savedPassword hjob
    refine ⟨⟨hjobId ▸ hvalid, ?_⟩, hjobId.symm⟩
    rw [← hjobSaved, checkpw_iff hb hs (hrows.subset hrow), hname]
    exact hregistered

/-- **Logins are decided by the registered password.** In every state of every run, with a correct
bcrypt: the login requests are answered in their order, each to its context, and with something other
than a failure exactly if there was a row of the account name when the request came, with another id than
`InvalidId`, and the password of the request, up to its first null byte, is the one that the account has
been registered with. Whoever is online as an account has made such a request for it. -/
theorem login_iff_registered_password (hb : b.Correct) (hs : Reachable (step b) initial s) :
    (∀ (i : Nat) (job : LoginJob) (response : Response),
      (loginAnswers s.world.history)[i]? = some (job, response) → ∃ r result,
        s.logins[i]? = some r ∧ response = .loginResponse r.context result ∧
        (result ≠ .failure ↔ ∃ id, s.Opens r id)) ∧
    ∀ context id, s.world.auth.contextIdMap context = some id →
      ∃ r ∈ s.logins, r.context = context ∧ s.Opens r id := by
  have hinv := inv_of_reachable hs
  have hcontext {r : LoginRequest} {job : LoginJob}
      (hjob : loginJob s.accounts r = { job with isPasswordMatch := false }) :
      job.context = r.context := by
    have heq := congrArg LoginJob.context hjob
    unfold loginJob loginJobOf at heq
    split at heq <;> exact heq.symm
  refine ⟨fun i job response hanswer => ?_, fun context id honline => ?_⟩
  · obtain ⟨r, hr, hjob⟩ := exists_request hs hanswer
    have hanswered := mem_answers_of_loginAnswers (List.mem_of_getElem? hanswer)
    obtain ⟨-, hexecuted, hwell⟩ := hinv.answered _ _ hanswered
    obtain ⟨result, hresponse⟩ : ∃ result, response = .loginResponse r.context result := by
      have haccounted : Accounted s.world :=
        (reachable_world hs).invariant (fun _ _ _ => accounted_step)
          ⟨rfl, by simp [World.initial, answers]⟩
      have hto := haccounted.responses _ (List.mem_filterMap.mpr ⟨_, hanswered, rfl⟩)
      cases response with
      | loginResponse context result =>
        obtain rfl : context = job.context := hto
        exact ⟨result, by rw [hcontext hjob]⟩
      | _ => exact hto.elim
    refine ⟨r, result, hr, hresponse, ?_⟩
    simp only [AnsweredWell] at hwell
    have hfailure : result = .failure ↔ job.isPasswordMatch = false := by
      rw [← hwell, hresponse, hcontext hjob, Response.loginResponse.injEq, and_iff_right rfl]
    rw [Ne, hfailure, Bool.not_eq_false]
    simp only [← isPasswordMatch_iff_opens hb hs hexecuted hjob]
    constructor
    · exact fun h => ⟨job.id, h, rfl⟩
    · rintro ⟨id, h, -⟩
      exact h
  · have hmaps : MapsHistory s.world :=
      (reachable_world hs).invariant (fun _ _ _ h hstep => mapsHistory_step h hstep) mapsHistory_initial
    obtain ⟨before, after, job, hhistory, rfl, rfl, -⟩ := (hmaps.2 context id).mp honline
    have hanswered : .answered (.login job) (.loginResponse job.context .success) ∈ s.world.history := by
      rw [hhistory]
      exact List.mem_append_right _ (List.mem_cons_self ..)
    obtain ⟨-, hexecuted, hwell⟩ := hinv.answered _ _ hanswered
    obtain ⟨i, hi⟩ := List.mem_iff_getElem?.mp (mem_loginAnswers hanswered)
    obtain ⟨r, hr, hjob⟩ := exists_request hs hi
    refine ⟨r, List.mem_of_getElem? hr, (hcontext hjob).symm, ?_⟩
    rw [← isPasswordMatch_iff_opens hb hs hexecuted hjob]
    refine ⟨?_, rfl⟩
    cases hmatch : job.isPasswordMatch with
    | true => rfl
    | false => cases hwell.mpr hmatch

theorem login_iff_registered_password_registerAndLogin :
    ∃ s, Transition.run (step plainBcrypt) initial registerAndLogin = some s ∧
      ∃ r ∈ s.logins, r.context = 2 ∧ s.Opens r 7 := by
  obtain ⟨s, hrun, honline⟩ : ∃ s, Transition.run (step plainBcrypt) initial registerAndLogin =
      some s ∧ s.world.auth.contextIdMap 2 = some 7 := ⟨_, rfl, by decide⟩
  exact ⟨s, hrun,
    (login_iff_registered_password plainBcrypt_correct ⟨registerAndLogin, hrun⟩).2 2 7 honline⟩

end RatkiniaServer.AuthService
