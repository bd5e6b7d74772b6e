import RatkiniaServer.Actor.AAuth
import Mathlib.Tactic.Common

/-!
# The online accounts of `A_Auth`

The two maps of `A_Auth` stay inverse to each other. A context that has disconnected comes back to
them exactly if `Tick` finds a successful login job of it at the front of the queue: the handler of
the disconnect message does not look for jobs that are still on their way.
-/

namespace RatkiniaServer.A_Auth

open Transition

variable {b : Bcrypt} {a : A_Auth} {w w' : World} {act : Action}

/-- `contextIdMap_` and `idContextMap_` are inverse to each other. -/
def Inverse (a : A_Auth) : Prop :=
  ∀ context id, a.contextIdMap context = some id ↔ a.idContextMap id = some context

/-- The disconnect of `context` has been handled. -/
abbrev World.Gone (w : World) (context : UInt32) : Prop := .disconnected context ∈ w.history

/-- No context whose disconnect has been handled is in either map. -/
def Offline (w : World) : Prop :=
  ∀ context, w.Gone context → w.auth.contextIdMap context = none ∧
    ∀ id, w.auth.idContextMap id ≠ some context

/-- The condition on a step: `Tick` does not find a job at the front of its queue that logs a
context in, with an account that is not online, after the disconnect of the context. -/
def NoLateLogin (w : World) : Action → Prop
  | .tickIterate _ => w.auth.ticking = true → ∀ job rest,
      w.auth.authJobForegroundQueue = .login job :: rest → job.isPasswordMatch = true →
      w.auth.idContextMap job.id = none → ¬ w.Gone job.context
  | _ => True

/-! ## The maps -/

/-- The maps after a login. -/
def LogsIn (a a' : A_Auth) (context : UInt32) (id : UInt64) : Prop :=
  a'.contextIdMap = Function.update a.contextIdMap context (some id) ∧
  a'.idContextMap = Function.update a.idContextMap id (some context)

/-- The maps are left alone. -/
def SameMaps (a a' : A_Auth) : Prop :=
  a'.contextIdMap = a.contextIdMap ∧ a'.idContextMap = a.idContextMap

theorem Inverse.of_sameMaps {a' : A_Auth} (h : Inverse a) (hs : SameMaps a a') : Inverse a' := by
  intro context id
  rw [hs.1, hs.2]
  exact h context id

/-- A login of a context and an account that are both offline keeps the maps inverse. -/
theorem Inverse.of_logsIn {a' : A_Auth} {c : UInt32} {i : UInt64} (h : Inverse a)
    (hlogin : LogsIn a a' c i) (hc : a.contextIdMap c = none) (hi : a.idContextMap i = none) :
    Inverse a' := by
  intro context id
  rw [hlogin.1, hlogin.2]
  by_cases hcontext : context = c
  · subst hcontext
    by_cases hid : id = i
    · subst hid
      simp
    · have hnone : a.idContextMap id ≠ some context := by
        intro hsome
        rw [(h context id).mpr hsome] at hc
        cases hc
      simp [hid, Ne.symm hid, hnone]
  · by_cases hid : id = i
    · subst hid
      have hnone : a.contextIdMap context ≠ some id := by
        intro hsome
        rw [(h context id).mp hsome] at hi
        cases hi
      simp [hcontext, Ne.symm hcontext, hnone]
    · simp [hcontext, hid, h context id]

/-- What handling a disconnect does to the maps. -/
theorem handleSessionDisconnected_maps (h : Inverse a) (c : UInt32) :
    (∀ context, (a.handleSessionDisconnected c).contextIdMap context =
      if context = c then none else a.contextIdMap context) ∧
    ∀ id, (a.handleSessionDisconnected c).idContextMap id =
      if a.idContextMap id = some c then none else a.idContextMap id := by
  cases hc : a.contextIdMap c with
  | none =>
    have hnone : ∀ id, a.idContextMap id ≠ some c := fun id hsome => by
      rw [(h c id).mpr hsome] at hc
      cases hc
    simp only [handleSessionDisconnected, hc]
    refine ⟨fun context => ?_, fun id => by rw [if_neg (hnone id)]⟩
    split_ifs with heq
    · rw [heq, hc]
    · rfl
  | some i =>
    simp only [handleSessionDisconnected, hc, Function.update_apply]
    refine ⟨fun context => trivial, fun id => ?_⟩
    have hiff : id = i ↔ a.idContextMap id = some c := by
      rw [← h c id, hc, Option.some.injEq, eq_comm]
    simp only [hiff]

theorem Inverse.handleSessionDisconnected (h : Inverse a) (c : UInt32) :
    Inverse (a.handleSessionDisconnected c) := by
  intro context id
  obtain ⟨h1, h2⟩ := handleSessionDisconnected_maps h c
  rw [h1, h2]
  by_cases hcontext : context = c
  · subst hcontext
    by_cases hid : a.idContextMap id = some context <;> simp [hid]
  · rw [if_neg hcontext, h context id]
    split_ifs with hid
    · rw [hid]
      simpa using Ne.symm hcontext
    · rfl

/-! ## One step -/

/-- An event that neither takes a context offline nor takes one online. -/
def Event.quiet : Event → Bool
  | .disconnected _ => false
  | .answered (.login _) (.loginResponse _ .success) => false
  | _ => true

/-- The answer to the job of a context that has gone online. -/
def Event.loggedIn (job : LoginJob) : Event :=
  .answered (.login job) (.loginResponse job.context .success)

/-- The history grows by quiet events. -/
def Quietly (w w' : World) : Prop :=
  ∃ events, w'.history = w.history ++ events ∧ ∀ e ∈ events, Event.quiet e = true

theorem Quietly.nil (h : w'.history = w.history) : Quietly w w' :=
  ⟨[], by rw [h, List.append_nil], by simp⟩

theorem Quietly.single {e : Event} (h : w'.history = w.history ++ [e]) (he : e.quiet = true) :
    Quietly w w' :=
  ⟨[e], h, by simpa using he⟩

theorem Quietly.gone_iff (h : Quietly w w') (c : UInt32) : w'.Gone c ↔ w.Gone c := by
  obtain ⟨events, hhistory, hquiet⟩ := h
  have hnot : Event.disconnected c ∉ events := fun hmem => by cases hquiet _ hmem
  rw [World.Gone, hhistory, List.mem_append, or_iff_left hnot]

/-- What `addContext` does. -/
theorem addContext_cases (a : A_Auth) (c : UInt32) (i : UInt64) :
    (SameMaps a (a.addContext c i).1 ∧ (a.addContext c i).2 ≠ .success ∧
      (a.contextIdMap c = none → a.idContextMap i ≠ none)) ∨
    (LogsIn a (a.addContext c i).1 c i ∧ (a.addContext c i).2 = .success ∧
      a.contextIdMap c = none ∧ a.idContextMap i = none) := by
  unfold addContext
  split_ifs with hc hi
  · refine Or.inl ⟨⟨rfl, rfl⟩, nofun, fun hnone => ?_⟩
    rw [hnone] at hc
    cases hc
  · exact Or.inl ⟨⟨rfl, rfl⟩, nofun, fun _ => Option.isSome_iff_ne_none.mp hi⟩
  · exact Or.inr ⟨⟨rfl, rfl⟩, rfl, by simpa using hc, by simpa using hi⟩

theorem tickIterate_history {tryCreateAccount : Bytes → Bytes → CreateAccountResult} {job : AuthJob}
    {rest : List AuthJob} (hq : w.auth.authJobForegroundQueue = job :: rest) :
    (w.tickIterate tryCreateAccount).history = w.history ++ [.answered job
      ({ w.auth with authJobForegroundQueue := rest }.answer tryCreateAccount job).2.1] := by
  simp only [World.tickIterate, hq]

/-- The answer to a successful login job at the front of the queue. -/
theorem tickIterate_login (tryCreateAccount : Bytes → Bytes → CreateAccountResult) {job : LoginJob}
    {rest : List AuthJob} (hq : w.auth.authJobForegroundQueue = .login job :: rest)
    (hmatch : job.isPasswordMatch = true) :
    ∃ a : A_Auth, SameMaps w.auth a ∧
      (w.tickIterate tryCreateAccount).auth =
        { (a.addContext job.context job.id).1 with ticking := true } ∧
      (w.tickIterate tryCreateAccount).history = w.history ++
        [.answered (.login job) (.loginResponse job.context
          (loginResultOf (a.addContext job.context job.id).2))] :=
  ⟨{ w.auth with authJobForegroundQueue := rest }, ⟨rfl, rfl⟩,
    by simp [World.tickIterate, hq, answer, hmatch], by simp [World.tickIterate, hq, answer, hmatch]⟩

/-- **What a step does to the maps**: nothing, but for handling a disconnect and for the iteration
of `Tick` that answers a successful login job of a context and an account that are both offline. -/
theorem step_cases (hs : step b w act = some w') :
    (SameMaps w.auth w'.auth ∧ Quietly w w' ∧ (∀ c, act ≠ .sessionDisconnected c) ∧
      ∀ tryCreateAccount job rest, act = .tickIterate tryCreateAccount →
        w.auth.authJobForegroundQueue = .login job :: rest → job.isPasswordMatch = true →
        w.auth.contextIdMap job.context = none → w.auth.idContextMap job.id ≠ none) ∨
    (∃ c, act = .sessionDisconnected c ∧ w'.auth = w.auth.handleSessionDisconnected c ∧
      w'.history = w.history ++ [.disconnected c]) ∨
    ∃ tryCreateAccount job rest, act = .tickIterate tryCreateAccount ∧ w.auth.ticking = true ∧
      w.auth.authJobForegroundQueue = .login job :: rest ∧ job.isPasswordMatch = true ∧
      w.auth.contextIdMap job.context = none ∧ w.auth.idContextMap job.id = none ∧
      LogsIn w.auth w'.auth job.context job.id ∧ w'.history = w.history ++ [.loggedIn job] := by
  cases act with
  | registerRequest context account password =>
    simp only [step] at hs
    split at hs
    · cases hs
    · cases hs
      cases hr : onRegisterRequest context account password with
      | inl job => exact Or.inl ⟨⟨rfl, rfl⟩, .single (e := .accepted job) rfl rfl, nofun, by simp⟩
      | inr responses =>
        exact Or.inl ⟨⟨rfl, rfl⟩, .single (e := .refused responses) rfl rfl, nofun, by simp⟩
  | loginRequest lookup context account password =>
    simp only [step] at hs
    split at hs
    · cases hs
    · cases hs
      cases hr : w.auth.onLoginRequest lookup context account password with
      | inl job => exact Or.inl ⟨⟨rfl, rfl⟩, .single (e := .accepted job) rfl rfl, nofun, by simp⟩
      | inr responses =>
        exact Or.inl ⟨⟨rfl, rfl⟩, .single (e := .refused responses) rfl rfl, nofun, by simp⟩
  | sessionDisconnected context =>
    simp only [step] at hs
    split at hs
    · cases hs
    · cases hs
      exact Or.inr (Or.inl ⟨context, rfl, rfl, rfl⟩)
  | tickBegin =>
    simp only [step] at hs
    split at hs
    · cases hs
    · cases hs
      exact Or.inl ⟨⟨rfl, rfl⟩, .nil rfl, nofun, by simp⟩
  | tickIterate tryCreateAccount =>
    simp only [step] at hs
    split at hs
    case isFalse => cases hs
    case isTrue htick =>
      cases hs
      cases hq : w.auth.authJobForegroundQueue with
      | nil =>
        refine Or.inl ⟨by simp [World.tickIterate, hq, SameMaps], .nil ?_, nofun, by simp⟩
        simp [World.tickIterate, hq]
      | cons job rest =>
        cases job with
        | register job =>
          refine Or.inl ⟨?_, ?_, nofun, by simp⟩
          · simp only [World.tickIterate, hq, answer]
            split <;> exact ⟨rfl, rfl⟩
          · exact .single (tickIterate_history hq) rfl
        | login job =>
          by_cases hmatch : job.isPasswordMatch = true
          · obtain ⟨a, hmaps, hauth, hhistory⟩ :=
              tickIterate_login tryCreateAccount hq hmatch
            rcases addContext_cases a job.context job.id with
              ⟨hsame, hresult, hne⟩ | ⟨hlogin, hresult, hc, hi⟩
            · refine Or.inl ⟨?_, .single hhistory ?_, nofun, fun _ job' rest' _ heq _ hnone => ?_⟩
              · rw [hauth]
                exact ⟨hsame.1.trans hmaps.1, hsame.2.trans hmaps.2⟩
              · cases hr : (a.addContext job.context job.id).2 with
                | success => exact absurd hr hresult
                | duplicateContext => rfl
                | idAlreadyOnline => rfl
              · obtain ⟨rfl, rfl⟩ : job = job' ∧ rest = rest' := by simpa using heq
                rw [← hmaps.2]
                exact hne (by rw [hmaps.1]; exact hnone)
            · rw [hresult] at hhistory
              rw [LogsIn, hmaps.1, hmaps.2] at hlogin
              rw [hmaps.1] at hc
              rw [hmaps.2] at hi
              exact Or.inr (Or.inr ⟨_, job, rest, rfl, htick, rfl, hmatch, hc, hi,
                by rw [hauth]; exact hlogin, hhistory⟩)
          · refine Or.inl ⟨?_, ?_, nofun, fun _ job' rest' _ heq htrue => ?_⟩
            · simp [World.tickIterate, hq, answer, hmatch, SameMaps]
            · refine .single (tickIterate_history hq) ?_
              simp [answer, hmatch, Event.quiet]
            · obtain ⟨rfl, rfl⟩ : job = job' ∧ rest = rest' := by simpa using heq
              exact absurd htrue hmatch
  | backgroundTake =>
    simp only [step] at hs
    split at hs
    · cases hs
      refine Or.inl ⟨?_, .nil rfl, nofun, by simp⟩
      simp only [backgroundTake]
      split <;> exact ⟨rfl, rfl⟩
    · cases hs
  | backgroundExecute salt =>
    simp only [step] at hs
    split at hs
    · obtain ⟨a', ha, rfl⟩ := Option.map_eq_some_iff.mp hs
      obtain ⟨job, -, rfl⟩ := Option.map_eq_some_iff.mp ha
      exact Or.inl ⟨⟨rfl, rfl⟩, .nil rfl, nofun, by simp⟩
    · cases hs
  | backgroundPush =>
    simp only [step] at hs
    split at hs
    · cases hs
      exact Or.inl ⟨⟨rfl, rfl⟩, .nil rfl, nofun, by simp⟩
    · cases hs

/-- The maps stay inverse to each other. -/
theorem inverse_step (h : Inverse w.auth) (hs : step b w act = some w') : Inverse w'.auth := by
  rcases step_cases hs with ⟨hsame, -⟩ | ⟨c, -, hauth, -⟩ |
    ⟨_, job, rest, -, -, -, -, hc, hi, hlogin, -⟩
  · exact h.of_sameMaps hsame
  · rw [hauth]
    exact h.handleSessionDisconnected c
  · exact h.of_logsIn hlogin hc hi

/-- A step keeps the contexts that are gone offline exactly if it is no late login. -/
theorem offline_step_iff (h : Inverse w.auth) (hoff : Offline w) (hs : step b w act = some w') :
    Offline w' ↔ NoLateLogin w act := by
  rcases step_cases hs with ⟨hsame, hquiet, -, hnot⟩ | ⟨c, rfl, hauth, hhist⟩ |
    ⟨_, job, rest, rfl, htick, hq, hmatch, hc, hi, hlogin, hhist⟩
  · have hgone := hquiet.gone_iff
    refine ⟨fun _ => ?_, fun _ context hcontext => ?_⟩
    · cases act with
      | tickIterate tryCreateAccount =>
        intro _ job rest hq hmatch hi hcontext
        exact hnot _ job rest rfl hq hmatch (hoff _ hcontext).1 hi
      | _ => trivial
    · rw [hsame.1, hsame.2]
      exact hoff context ((hgone context).mp hcontext)
  · refine ⟨fun _ => trivial, fun _ context hcontext => ?_⟩
    obtain ⟨h1, h2⟩ := handleSessionDisconnected_maps h c
    rw [hauth]
    by_cases heq : context = c
    · subst heq
      refine ⟨by rw [h1, if_pos rfl], fun id => ?_⟩
      rw [h2]
      split_ifs with hid
      · simp
      · exact hid
    · have hold : w.Gone context := by
        rw [World.Gone, hhist] at hcontext
        simpa [heq] using hcontext
      refine ⟨by rw [h1, if_neg heq, (hoff context hold).1], fun id => ?_⟩
      rw [h2]
      split_ifs with hid
      · simp
      · exact (hoff context hold).2 id
  · have hgone : ∀ c, w'.Gone c ↔ w.Gone c := fun c => by
      simp [World.Gone, hhist, Event.loggedIn]
    constructor
    · intro hoff' _ job' rest' hq' _ _ hcontext
      obtain ⟨rfl, rfl⟩ : job = job' ∧ rest = rest' := by simpa [hq] using hq'
      have hsome := (hoff' _ ((hgone _).mpr hcontext)).1
      rw [hlogin.1, Function.update_self] at hsome
      cases hsome
    · intro hok context hcontext
      have hold := (hgone context).mp hcontext
      have hne : context ≠ job.context := by
        rintro rfl
        exact hok htick job rest hq hmatch hi hold
      rw [hlogin.1, hlogin.2, Function.update_of_ne hne]
      refine ⟨(hoff context hold).1, fun id => ?_⟩
      by_cases hid : id = job.id
      · rw [hid, Function.update_self]
        simpa using hne.symm
      · rw [Function.update_of_ne hid]
        exact (hoff context hold).2 id

/-! ## Runs -/

/-- **Contexts that are gone.** Through a run the contexts whose disconnect has been handled stay
offline exactly if no iteration of `Tick` answers a successful login job of such a context. -/
theorem offline_always_iff (b : Bcrypt) (acts : List Action) :
    Always (step b) Offline World.initial acts ↔ Meets (step b) NoLateLogin World.initial acts := by
  refine always_iff_meets (I := fun w => Inverse w.auth)
    (fun _ _ _ hI _ hs _ => inverse_step hI hs) (fun _ _ _ hI hoff hs => offline_step_iff hI hoff hs)
    (fun w act _ _ hnone => ?_) (fun context id => by simp [World.initial, initial])
    (fun context hgone => by simp [World.Gone, World.initial] at hgone) acts
  cases act with
  | tickIterate tryCreateAccount =>
    intro htick
    simp [step, htick] at hnone
  | _ => trivial

/-- A bcrypt in which every string is its own hash. -/
def plainBcrypt : Bcrypt := ⟨fun p h => if p = h then 0 else 1, fun p _ => some p⟩

/-- A login request, the disconnect of its context while the job is with the background thread, and
the `Tick` after it: the context that is gone holds account 7. -/
theorem gone_context_online : ∃ w, run (step plainBcrypt) World.initial
    [.loginRequest (fun _ => some (7, [112])) 1 [97] [112], .backgroundTake,
      .sessionDisconnected 1, .backgroundExecute [], .backgroundPush, .tickBegin,
      .tickIterate fun _ _ => .success] = some w ∧
    w.Gone 1 ∧ w.auth.contextIdMap 1 = some 7 ∧ w.auth.idContextMap 7 = some 1 :=
  ⟨_, rfl, by decide, by decide, by decide⟩

end RatkiniaServer.A_Auth
