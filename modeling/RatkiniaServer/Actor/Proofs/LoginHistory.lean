import RatkiniaServer.Actor.Proofs.AAuth
import Mathlib.Data.List.Induction

/-!
# Login state and login history

The maps of `A_Auth` say exactly who has logged in since: a pair is online if and only if a success
was sent for it and no disconnect of its context has been handled after that.
-/

namespace RatkiniaServer.A_Auth

open Transition

variable {b : Bcrypt} {w w' : World} {act : Action} {c : UInt32} {i : UInt64}

/-- A success was sent to the context for the account, and no disconnect of the context has been
handled since. -/
def LoggedIn (history : List Event) (context : UInt32) (id : UInt64) : Prop :=
  ∃ before after job, history = before ++ Event.loggedIn job :: after ∧
    job.context = context ∧ job.id = id ∧ .disconnected context ∉ after

/-- One more event. -/
theorem loggedIn_concat {history : List Event} {e : Event} : LoggedIn (history ++ [e]) c i ↔
    (∃ job, e = .loggedIn job ∧ job.context = c ∧ job.id = i) ∨
      (LoggedIn history c i ∧ e ≠ .disconnected c) := by
  constructor
  · rintro ⟨before, after, job, heq, hc, hi, hnot⟩
    rcases List.eq_nil_or_concat after with rfl | ⟨after', e', rfl⟩
    · obtain ⟨-, he⟩ := List.append_inj' heq rfl
      exact Or.inl ⟨job, List.singleton_inj.mp he, hc, hi⟩
    · rw [List.concat_eq_append] at heq hnot
      rw [← List.cons_append, ← List.append_assoc] at heq
      obtain ⟨rfl, he⟩ := List.append_inj' heq rfl
      obtain rfl := List.singleton_inj.mp he
      rw [List.mem_append, not_or, List.mem_singleton] at hnot
      exact Or.inr ⟨⟨before, after', job, rfl, hc, hi, hnot.1⟩, Ne.symm hnot.2⟩
  · rintro (⟨job, rfl, hc, hi⟩ | ⟨⟨before, after, job, rfl, hc, hi, hnot⟩, hne⟩)
    · exact ⟨history, [], job, rfl, hc, hi, List.not_mem_nil⟩
    · refine ⟨before, after ++ [e], job, by simp, hc, hi, fun hmem => ?_⟩
      rcases List.mem_append.mp hmem with hmem | hmem
      · exact hnot hmem
      · exact hne (List.mem_singleton.mp hmem).symm

/-- Quiet events change nothing. -/
theorem Quietly.loggedIn_iff (h : Quietly w w') : LoggedIn w'.history c i ↔ LoggedIn w.history c i := by
  obtain ⟨events, hhistory, hquiet⟩ := h
  rw [hhistory]
  clear hhistory
  induction events using List.reverseRecOn with
  | nil => rw [List.append_nil]
  | append_singleton events e ih =>
    have he : e.quiet = true := hquiet e (by simp)
    rw [← List.append_assoc, loggedIn_concat, ih fun e' h' => hquiet e' (List.mem_append_left _ h')]
    constructor
    · rintro (⟨job, rfl, -⟩ | ⟨hlogged, -⟩)
      · cases he
      · exact hlogged
    · intro hlogged
      refine Or.inr ⟨hlogged, ?_⟩
      rintro rfl
      cases he

/-- The maps are inverse to each other, and a pair is in them exactly if it is logged in by the
history. -/
def MapsHistory (w : World) : Prop :=
  Inverse w.auth ∧ ∀ context id, w.auth.contextIdMap context = some id ↔ LoggedIn w.history context id

theorem mapsHistory_initial : MapsHistory World.initial := by
  refine ⟨fun context id => by simp [World.initial, initial], fun context id => ?_⟩
  constructor
  · intro h
    cases h
  · rintro ⟨before, after, job, heq, -⟩
    simp [World.initial] at heq

/-- One step keeps the maps in line with the history. -/
theorem mapsHistory_step (h : MapsHistory w) (hs : step b w act = some w') : MapsHistory w' := by
  refine ⟨inverse_step h.1 hs, fun context id => ?_⟩
  rcases step_cases hs with ⟨hsame, hquiet, -⟩ | ⟨c, rfl, hauth, hhist⟩ |
    ⟨_, job, rest, rfl, -, -, -, hc, hi, hlogin, hhist⟩
  · rw [hsame.1, hquiet.loggedIn_iff]
    exact h.2 context id
  · rw [hauth, (handleSessionDisconnected_maps h.1 c).1, hhist, loggedIn_concat, ← h.2]
    by_cases heq : context = c
    · subst heq
      simp [Event.loggedIn]
    · have hne : Event.disconnected c ≠ .disconnected context := fun hcon =>
        heq (Event.disconnected.inj hcon).symm
      simp [heq, hne, Event.loggedIn]
  · rw [hlogin.1, hhist, loggedIn_concat, ← h.2]
    by_cases heq : context = job.context
    · subst heq
      rw [Function.update_self, Option.some.injEq, hc]
      constructor
      · intro hid
        exact Or.inl ⟨job, rfl, rfl, hid⟩
      · rintro (⟨job', hjob, -, hid⟩ | ⟨hnone, -⟩)
        · cases hjob
          exact hid
        · cases hnone
    · rw [Function.update_of_ne heq]
      constructor
      · intro hsome
        exact Or.inr ⟨hsome, by simp [Event.loggedIn]⟩
      · rintro (⟨job', hjob, rfl, -⟩ | ⟨hsome, -⟩)
        · cases hjob
          exact absurd rfl heq
        · exact hsome

/-- A step that sends a success finds the context and the account offline; one that sends none and
handles no disconnect leaves the maps alone. -/
theorem success_step (hs : step b w act = some w') :
    (∀ job, w'.history = w.history ++ [.loggedIn job] →
      w.auth.contextIdMap job.context = none ∧ w.auth.idContextMap job.id = none) ∧
    ((∀ job, w'.history ≠ w.history ++ [.loggedIn job]) → (∀ c, act ≠ .sessionDisconnected c) →
      SameMaps w.auth w'.auth) := by
  rcases step_cases hs with ⟨hsame, ⟨events, hevents, hquiet⟩, -⟩ | ⟨c, rfl, -, hhist⟩ |
    ⟨_, job, rest, rfl, -, -, -, hc, hi, -, hhist⟩
  · refine ⟨fun job hjob => ?_, fun _ _ => hsame⟩
    rw [hevents] at hjob
    have hmem : Event.loggedIn job ∈ events := by simp [List.append_cancel_left hjob]
    cases hquiet _ hmem
  · refine ⟨fun job hjob => ?_, fun _ hnot => absurd rfl (hnot c)⟩
    rw [hhist] at hjob
    simp [Event.loggedIn] at hjob
  · refine ⟨fun job' hjob => ?_, fun hnot _ => absurd hhist (hnot job)⟩
    rw [hhist] at hjob
    obtain ⟨rfl, -⟩ : job = job' ∧ job.context = job'.context := by simpa [Event.loggedIn] using hjob
    exact ⟨hc, hi⟩

/-- **Login state equals login history.** In every state of every run the two maps are inverse to each
other, and a context is online for an account exactly if a success was sent for them with no
disconnect of the context handled since. A success is sent only where neither was online; a step that
sends none and handles no disconnect leaves both maps as they were. -/
theorem login_state_eq_history (b : Bcrypt) (acts : List Action) (w : World)
    (hrun : run (step b) World.initial acts = some w) :
    Inverse w.auth ∧
    (∀ context id, w.auth.contextIdMap context = some id ↔ LoggedIn w.history context id) ∧
    ∀ act w', step b w act = some w' →
      (∀ job, w'.history = w.history ++ [.loggedIn job] →
        w.auth.contextIdMap job.context = none ∧ w.auth.idContextMap job.id = none) ∧
      ((∀ job, w'.history ≠ w.history ++ [.loggedIn job]) → (∀ c, act ≠ .sessionDisconnected c) →
        SameMaps w.auth w'.auth) := by
  have hmaps : MapsHistory w :=
    run_invariant' (fun _ _ _ h hs => mapsHistory_step h hs) mapsHistory_initial hrun
  exact ⟨hmaps.1, hmaps.2, fun act w' hs => success_step hs⟩

/-- Two logins of context 1 for the accounts 7 and 8, of which the second comes too late. -/
def twoLogins : List Action :=
  let request id := Action.loginRequest (fun _ => some (id, [112])) 1 [97] [112]
  let process := [Action.backgroundTake, .backgroundExecute [], .backgroundPush]
  let iterate := Action.tickIterate fun _ _ => .success
  [request 7, request 8] ++ process ++ process ++ [.tickBegin, iterate, iterate]

theorem login_state_eq_history_twoLogins : ∃ w, run (step plainBcrypt) World.initial twoLogins = some w ∧
    w.auth.contextIdMap 1 = some 7 ∧ LoggedIn w.history 1 7 ∧ ¬ LoggedIn w.history 1 8 :=
  ⟨_, rfl, by decide, ((login_state_eq_history plainBcrypt twoLogins _ rfl).2.1 1 7).mp (by decide),
    fun h => absurd (((login_state_eq_history plainBcrypt twoLogins _ rfl).2.1 1 8).mpr h) (by decide)⟩

end RatkiniaServer.A_Auth
