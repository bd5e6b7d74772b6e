import RatkiniaServer.Proofs.DisconnectNotices
import RatkiniaServer.TlsObjects

/-!
# Proofs: the life cycle of the SSL objects

The duty to free an object, and then to close its connection, is a token: it is with the thread in
`PostAccept`, with the open session, with the thread in `Cleanup` that has set `shouldClose_`, or done
with. That no call comes late needs more than the code sees to, and is what `Orderly` asks for.
-/

namespace RatkiniaServer.TlsObjects

open Threads Transition

/-! ## What a step of `NetworkServer` closes -/

section Server

variable {s s' : NetworkServer} {t o : Nat} {p : NetworkServer.Pc}

/-- `shouldClose_` after the step of the thread. -/
def closeNext (s : NetworkServer) (t : Nat) : Nat → Bool :=
  match closes s t with
  | some o => Function.update s.shouldClose o true
  | none => s.shouldClose

theorem closeNext_of_runs {q : NetworkServer.Pc} {r : NetworkServer} (h : s.Runs t q p r)
    (hq : s.pc t = q) :
    (r.goto t p).created = s.created ∧ (r.goto t p).shouldClose = closeNext s t := by
  unfold closeNext closes
  rw [hq]
  cases h with
  | erase context held o hfound | erase_none context held hfound =>
    dsimp only
    rw [hfound]
    exact ⟨rfl, rfl⟩
  | _ => exact ⟨rfl, rfl⟩

theorem closeNext_of_runStep {answers : NetworkServer.Answers} (h : s.runStep t answers = some s') :
    s'.created = s.created ∧ s'.shouldClose = closeNext s t := by
  obtain ⟨p, r, hruns, rfl⟩ := NetworkServer.runs_of_runStep h
  exact closeNext_of_runs hruns rfl

/-- Only `PostAccept` makes a session. -/
theorem same_of_startStep {handler : NetworkServer.Handler} (h : s.startStep t handler = some s') :
    s'.shouldClose = s.shouldClose ∧
      s'.created = match handler with
        | .accept => s.created + 1
        | _ => s.created := by
  obtain ⟨-, p, r, hbegins, rfl⟩ := NetworkServer.begins_of_startStep h
  cases hbegins
  all_goals exact ⟨rfl, rfl⟩

/-- The thread of a step sets `shouldClose_` of the session that the step closes, and of no other. -/
theorem closeNext_of_step {a : NetworkServer.Action} (h : s.step a = some s') :
    s'.shouldClose = closeNext s a.thread := by
  cases a with
  | run t answers => exact (closeNext_of_runStep h).2
  | start t handler =>
    obtain ⟨hq, -⟩ := NetworkServer.moves_of_startStep h
    rw [(same_of_startStep h).1]
    simp [closeNext, closes, NetworkServer.Action.thread, hq]

theorem closeNext_eq_true : closeNext s t o = true ↔ s.shouldClose o = true ∨ closes s t = some o := by
  unfold closeNext
  cases closes s t with
  | none => simp
  | some o' =>
    by_cases ho : o = o'
    · simp [ho]
    · have hne : o' ≠ o := fun h => ho h.symm
      simp [Function.update_of_ne ho, hne]

/-- `TrySendAsync` comes to its loop only where `shouldClose_` is clear. -/
theorem open_of_sendLoop {answers : NetworkServer.Answers} {handler handler' : SendHandler} {o' : Nat}
    (hq : s.pc t = .trySend handler o) (h : s.runStep t answers = some s')
    (hp : s'.pc t = .sendLoop handler' o') : s.shouldClose o = false := by
  obtain ⟨p, r, hruns, rfl⟩ := NetworkServer.runs_of_runStep h
  rw [hruns.pc_goto, Function.update_self] at hp
  rw [hq] at hruns
  cases hruns with
  | trySend _ _ hoff hopen => exact hopen
  | trySend_nothing | trySend_fails => cases hp

/-! ## Sessions that are known -/

/-- What refers to a session refers to one that was made, and an erased session is closed. -/
structure Known (s : NetworkServer) : Prop where
  refers : ∀ o, s.Refers o → o < s.created
  table : ∀ o, s.InTable o → o < s.created
  accepts : ∀ t o, (s.pc t).accepts = some o → o < s.created
  closed : ∀ o, s.shouldClose o = true → o < s.created
  erased : ∀ o, o < s.created → ¬ s.InTable o → (∀ t, (s.pc t).accepts ≠ some o) →
    s.shouldClose o = true

theorem lt_of_closes (h : Known s) (ho : closes s t = some o) : o < s.created := by
  unfold closes at ho
  split at ho
  case h_1 context o' held hq =>
    obtain rfl := Option.some.inj ho
    exact h.refers _ (Or.inr ⟨t, by rw [hq]; rfl⟩)
  case h_2 context held hq => exact h.table o ⟨context, ho⟩
  case h_3 => cases ho

/-- A session leaves the table in a step that closes it. -/
theorem inTable_or_closes (h : NetworkServer.Adds s t s') (ho : s.InTable o) :
    s'.InTable o ∨ closes s t = some o := by
  cases h with
  | quiet p hpc hsame =>
    exact Or.inl ((NetworkServer.inTable_congr (NetworkServer.fields_eq hsame).2.1).mpr ho)
  | accept hq hpc hsame =>
    exact Or.inl ((NetworkServer.inTable_congr (NetworkServer.fields_eq hsame).2.1).mpr ho)
  | emplace o' hq hfree hpc hsame =>
    obtain ⟨context, ho⟩ := ho
    refine Or.inl ⟨context, ?_⟩
    have hne : context ≠ NetworkServer.contextOf o' := by
      rintro rfl
      rw [hfree] at ho
      cases ho
    rw [(NetworkServer.fields_eq hsame).2.1, Function.update_of_ne hne, ho]
  | dispatch o' value messageType body hq => exact Or.inl ho
  | erase context held o' hq hfound =>
    by_cases heq : o = o'
    · right
      rw [closes, hq]
      exact heq ▸ hfound
    · exact Or.inl (NetworkServer.inTable_erased hfound heq ho)
  | notify context actor held hq hpc hsame =>
    exact Or.inl ((NetworkServer.inTable_congr (NetworkServer.fields_eq hsame).2.1).mpr ho)

theorem known_init (actor : String) : Known (.init actor) where
  refers o h := by
    rcases h with ⟨type, h⟩ | ⟨t, h⟩
    · exact absurd rfl h
    · cases h
  table o h := by
    obtain ⟨context, h⟩ := h
    cases h
  accepts t o h := by cases h
  closed o h := by cases h
  erased o h := by cases h

theorem known_step {a : NetworkServer.Action} (h : Known s) (hstep : s.step a = some s') :
    Known s' := by
  obtain ⟨p, hmoves⟩ := NetworkServer.moves_of_step hstep
  have hadds := NetworkServer.adds_of_step hstep
  have hclose := closeNext_of_step hstep
  have hle := hadds.created_le
  have haccepts : ∀ t o, (s'.pc t).accepts = some o → o < s'.created := by
    intro t o ho
    rcases hadds.accepts ho with ho | ⟨rfl, -, hcreated⟩
    · have hlt := h.accepts t o ho
      omega
    · omega
  have htable : ∀ o, s'.InTable o → o < s'.created := by
    intro o ho
    rcases hadds.inTable ho with ho | ⟨ho, -⟩
    · have hlt := h.table o ho
      omega
    · have hlt := h.accepts _ o ho
      omega
  refine ⟨fun o ho => ?_, htable, haccepts, fun o ho => ?_, fun o ho hnot hnone => ?_⟩
  · have hlt (ho : s.Refers o) : o < s'.created := Nat.lt_of_lt_of_le (h.refers o ho) hle
    rcases hmoves.refers rfl ho with ho | hp
    · exact hlt ho
    · have hstep := hmoves.table
      generalize hsessions : s'.sessions = sessions at hstep
      cases hstep with
      | keep hfrom =>
        rcases hfrom o hp with hq | ho | ho
        · exact hlt (Or.inr ⟨_, hq⟩)
        · exact hlt ho
        · exact Nat.lt_of_lt_of_le (h.table o ho) hle
      | emplace o' hfree hp' =>
        obtain rfl := Option.some.inj (hp'.symm.trans hp)
        refine htable _ ⟨NetworkServer.contextOf o', ?_⟩
        rw [hsessions, Function.update_self]
      | erase context held o' hq hfound hp' =>
        rw [hp'] at hp
        cases hp
  · rw [hclose] at ho
    rcases closeNext_eq_true.mp ho with ho | ho
    · exact Nat.lt_of_lt_of_le (h.closed o ho) hle
    · exact Nat.lt_of_lt_of_le (lt_of_closes h ho) hle
  · rw [hclose, closeNext_eq_true]
    rcases hadds.lt_or_accepts ho with hlt | haccept
    · by_cases hin : s.InTable o
      · exact Or.inr ((inTable_or_closes hadds hin).resolve_left hnot)
      · refine Or.inl (h.erased o hlt hin fun t ht => ?_)
        rcases hadds.accepts_or_inTable ht with ht | hin'
        · exact hnone t ht
        · exact hnot hin'
    · exact absurd haccept (hnone _)

end Server

/-! ## The invariant -/

section Objects

variable {s s' : TlsObjects} {t i o : Nat} {p : TlsPc}

/-- The thread is in `PostAccept` with an object that has no session. -/
def TlsPc.accepts (i : Nat) : TlsPc → Bool
  | .accepting j | .accepted j => j = i
  | _ => false

/-- The thread is to free the object, or to close its connection. -/
def TlsPc.owes (i : Nat) : TlsPc → Bool
  | .accepting j | .accepted j | .freeing j | .closing j => j = i
  | _ => false

/-- The thread is to free the object. -/
def TlsPc.owesFree (i : Nat) : TlsPc → Bool
  | .accepting j | .accepted j | .freeing j => j = i
  | _ => false

theorem TlsPc.owes_of_owesFree (h : p.owesFree i = true) : p.owes i = true := by
  cases p <;> simp_all [owesFree, owes]

theorem TlsPc.owesFree_of_accepts (h : p.accepts i = true) : p.owesFree i = true := by
  cases p <;> simp_all [owesFree, accepts]

/-- A loop uses the session that it is for. -/
theorem TlsPc.eq_of_uses {caller : Caller} {pc : BufferPc} {o' : Nat}
    (h : (TlsPc.buffers caller o pc).uses o' = true) : o = o' := by
  cases pc with
  | returned value => cases h
  | _ => exact of_decide_eq_true h

/-- The object is that of an open session. -/
def Open (s : TlsObjects) (i : Nat) : Prop := ∃ o, s.ssl o = some i ∧ s.server.shouldClose o = false

/-- The invariant. -/
structure Inv (s : TlsObjects) : Prop where
  known : Known s.server
  ssl : ∀ o i, s.ssl o = some i → o < s.server.created ∧ i < s.objects
  inj : ∀ o o' i, s.ssl o = some i → s.ssl o' = some i → o = o'
  unbound : ∀ t i, (s.tls t).accepts i = true → ∀ o, s.ssl o ≠ some i
  duty : ∀ i, Token (TlsPc.owes i) s.tls (s.Open i ∨ s.closed i = true) (decide (i < s.objects))
  new : ∀ i, s.objects ≤ i → s.freed i = 0
  opened : ∀ i, s.Open i → s.freed i = 0
  owesFree : ∀ t i, (s.tls t).owesFree i = true → s.freed i = 0
  closing : ∀ t i, s.tls t = .closing i → s.freed i = 1
  closed : ∀ i, s.closed i = true → s.freed i = 1
  uses : ∀ t o i, (s.tls t).uses o = true → s.ssl o = some i → s.freed i = 0
  late : s.lateCalls = []

theorem inv_init (actor : String) : Inv (init actor) where
  known := known_init actor
  ssl _ _ h := by cases h
  inj _ _ _ h := by cases h
  unbound _ _ h := by cases h
  duty i := by
    refine Token.off_of (fun _ => rfl) ?_
    rintro (⟨o, h, -⟩ | h) <;> cases h
  new _ _ := rfl
  opened _ _ := rfl
  owesFree _ _ _ := rfl
  closing _ _ h := by cases h
  closed _ h := by cases h
  uses _ _ _ _ _ := rfl
  late := rfl

/-- What holds of the place of every thread still does once a thread has gone on. -/
theorem forall_goto {A : TlsPc → Prop} (h : ∀ u, u ≠ t → A (s.tls u)) (hp : A p) (u : Nat) :
    A ((s.goto t p).tls u) :=
  forall_update (A := fun _ => A) h hp u

theorem Inv.unbound_goto (h : Inv s) (hp : ∀ i, p.accepts i = false) (u i : Nat) :
    ((s.goto t p).tls u).accepts i = true → ∀ o, s.ssl o ≠ some i :=
  forall_goto (A := fun q => q.accepts i = true → ∀ o, s.ssl o ≠ some i) (fun u _ => h.unbound u i)
    (fun hi => absurd hi (Bool.eq_false_iff.mp (hp i))) u

theorem Inv.owesFree_goto (h : Inv s) (hp : ∀ i, p.owesFree i = false) (u i : Nat) :
    ((s.goto t p).tls u).owesFree i = true → s.freed i = 0 :=
  forall_goto (A := fun q => q.owesFree i = true → s.freed i = 0) (fun u _ => h.owesFree u i)
    (fun hi => absurd hi (Bool.eq_false_iff.mp (hp i))) u

theorem Inv.closing_goto (h : Inv s) (hp : ∀ i, p ≠ .closing i) (u i : Nat) :
    (s.goto t p).tls u = .closing i → s.freed i = 1 :=
  forall_goto (A := fun q => q = .closing i → s.freed i = 1) (fun u _ => h.closing u i)
    (fun hi => absurd hi (hp i)) u

theorem Inv.uses_goto (h : Inv s) (hp : ∀ o, p.uses o = false) (u o i : Nat) :
    ((s.goto t p).tls u).uses o = true → s.ssl o = some i → s.freed i = 0 :=
  forall_goto (A := fun q => q.uses o = true → s.ssl o = some i → s.freed i = 0)
    (fun u _ => h.uses u o i) (fun ho => absurd ho (Bool.eq_false_iff.mp (hp o))) u

/-- A step that only takes a thread from one place to another. -/
theorem Inv.goto (h : Inv s) (haccepts : ∀ i, p.accepts i = true → (s.tls t).accepts i = true)
    (howes : ∀ i, p.owes i = (s.tls t).owes i)
    (hfree : ∀ i, p.owesFree i = true → (s.tls t).owesFree i = true)
    (hclosing : ∀ i, p = .closing i → s.tls t = .closing i)
    (huses : ∀ o i, p.uses o = true → s.ssl o = some i → s.freed i = 0) : Inv (s.goto t p) where
  known := h.known
  ssl := h.ssl
  inj := h.inj
  unbound u i := forall_goto (A := fun q => q.accepts i = true → ∀ o, s.ssl o ≠ some i)
    (fun u _ => h.unbound u i) (fun hp => h.unbound t i (haccepts i hp)) u
  duty i := (h.duty i).move (howes i)
  new := h.new
  opened := h.opened
  owesFree u i := forall_goto (A := fun q => q.owesFree i = true → s.freed i = 0)
    (fun u _ => h.owesFree u i) (fun hp => h.owesFree t i (hfree i hp)) u
  closing u i := forall_goto (A := fun q => q = .closing i → s.freed i = 1)
    (fun u _ => h.closing u i) (fun hp => h.closing t i (hclosing i hp)) u
  closed := h.closed
  uses u o i := forall_goto (A := fun q => q.uses o = true → s.ssl o = some i → s.freed i = 0)
    (fun u _ => h.uses u o i) (huses o i) u
  late := h.late

/-! ### Steps of `PostAccept` -/

theorem Inv.acceptStep (h : Inv s) (hstep : s.acceptStep t = some s') : Inv s' := by
  unfold TlsObjects.acceptStep at hstep
  split at hstep
  case h_2 => cases hstep
  case h_1 hout hidle =>
  obtain rfl := Option.some.inj hstep
  refine ⟨h.known, fun o i hi => ?_, h.inj, fun u i => ?_, fun i => ?_, fun i hi => ?_, h.opened,
    fun u i => ?_, fun u i => ?_, h.closed, fun u o i => ?_, h.late⟩
  · have hlt := h.ssl o i hi
    exact ⟨hlt.1, Nat.lt_succ_of_lt hlt.2⟩
  · refine forall_goto (A := fun q => q.accepts i = true → ∀ o, s.ssl o ≠ some i)
      (fun u _ => h.unbound u i) (fun hp o ho => ?_) u
    have hi : s.objects = i := by simpa [TlsPc.accepts] using hp
    have hlt := (h.ssl o i ho).2
    omega
  · show Token (TlsPc.owes i) (Function.update s.tls t (.accepting s.objects)) _
      (decide (i < s.objects + 1))
    have htoken := h.duty i
    rcases eq_or_ne i s.objects with rfl | hne
    · rw [decide_eq_false (Nat.lt_irrefl _)] at htoken
      rw [decide_eq_true (Nat.lt_succ_self _)]
      exact htoken.take (by simp [TlsPc.owes])
    · have hiff : decide (i < s.objects + 1) = decide (i < s.objects) :=
        decide_eq_decide.mpr (by omega)
      rw [hiff]
      refine htoken.move ?_
      rw [hout]
      simp [TlsPc.owes, hne.symm]
  · exact h.new i (Nat.le_of_succ_le hi)
  · refine forall_goto (A := fun q => q.owesFree i = true → s.freed i = 0)
      (fun u _ => h.owesFree u i) (fun hp => ?_) u
    have hi : s.objects = i := by simpa [TlsPc.owesFree] using hp
    exact h.new i (Nat.le_of_eq hi)
  · exact h.closing_goto (p := .accepting s.objects) nofun u i
  · exact h.uses_goto (fun _ => rfl) u o i

/-- `PostAccept` makes the session. -/
theorem Inv.create (h : Inv s) (hq : s.tls t = .accepted i) {server : NetworkServer}
    (hstep : s.server.startStep t .accept = some server) :
    Inv { s.goto t .outside with
      server := server
      ssl := Function.update s.ssl s.server.created (some i) } := by
  obtain ⟨hclose, hcreated⟩ := same_of_startStep hstep
  have howes : (s.tls t).owes i = true := by simp [hq, TlsPc.owes]
  obtain ⟨hobject, hsettled⟩ := (h.duty i).of_mem howes
  have hlt : i < s.objects := of_decide_eq_true hobject
  have hunbound := h.unbound t i (by simp [hq, TlsPc.accepts])
  have hnew : s.server.shouldClose s.server.created = false := by
    cases hc : s.server.shouldClose s.server.created with
    | false => rfl
    | true => exact absurd (h.known.closed _ hc) (Nat.lt_irrefl _)
  have hssl (o j : Nat) (ho : Function.update s.ssl s.server.created (some i) o = some j) :
      (o = s.server.created ∧ j = i) ∨ s.ssl o = some j := by
    rcases eq_or_ne o s.server.created with rfl | hne
    · rw [Function.update_self] at ho
      exact Or.inl ⟨rfl, (Option.some.inj ho).symm⟩
    · rw [Function.update_of_ne hne] at ho
      exact Or.inr ho
  have hfreed : s.freed i = 0 := h.owesFree t i (by simp [hq, TlsPc.owesFree])
  -- The open sessions are those that were open and the new one.
  have hopen (j : Nat) : (∃ o, Function.update s.ssl s.server.created (some i) o = some j ∧
      server.shouldClose o = false) ↔ j = i ∨ s.Open j := by
    rw [hclose]
    constructor
    · rintro ⟨o, ho, hopen⟩
      rcases hssl o j ho with ⟨-, rfl⟩ | ho
      · exact Or.inl rfl
      · exact Or.inr ⟨o, ho, hopen⟩
    · rintro (rfl | ⟨o, ho, hopen⟩)
      · exact ⟨s.server.created, Function.update_self .., hnew⟩
      · have hne : o ≠ s.server.created := Nat.ne_of_lt (h.ssl o j ho).1
        exact ⟨o, by rw [Function.update_of_ne hne, ho], hopen⟩
  refine ⟨?_, fun o j ho => ?_, fun o o' j ho ho' => ?_, fun u j => ?_, fun j => ?_, h.new,
    fun j hj => ?_, fun u j => ?_, fun u j => ?_, h.closed, fun u o j => ?_, h.late⟩
  · exact known_step (a := .start t .accept) h.known hstep
  · show o < server.created ∧ j < s.objects
    rcases hssl o j ho with ⟨rfl, rfl⟩ | ho
    · exact ⟨by rw [hcreated]; exact Nat.lt_succ_self _, hlt⟩
    · have hlt := h.ssl o j ho
      exact ⟨by rw [hcreated]; exact Nat.lt_succ_of_lt hlt.1, hlt.2⟩
  · rcases hssl o j ho with ⟨rfl, rfl⟩ | hs
    · rcases hssl o' j ho' with ⟨rfl, -⟩ | hs'
      · rfl
      · exact absurd hs' (hunbound o')
    · rcases hssl o' j ho' with ⟨rfl, rfl⟩ | hs'
      · exact absurd hs (hunbound o)
      · exact h.inj o o' j hs hs'
  · refine forall_goto (p := .outside) (A := fun q => q.accepts j = true →
      ∀ o, Function.update s.ssl s.server.created (some i) o ≠ some j) (fun u hu haccepts o ho => ?_)
      nofun u
    rcases hssl o j ho with ⟨-, rfl⟩ | ho
    · have howes' := TlsPc.owes_of_owesFree (TlsPc.owesFree_of_accepts haccepts)
      exact hu ((h.duty j).unique howes' howes)
    · exact h.unbound u j haccepts o ho
  · show Token (TlsPc.owes j) (Function.update s.tls t .outside) _ _
    rcases eq_or_ne j i with rfl | hne
    · exact (h.duty j).give howes rfl (Or.inl ((hopen j).mpr (Or.inl rfl)))
    · have hmove := (h.duty j).move (i := t) (p := .outside) (by simp [hq, TlsPc.owes, hne.symm])
      refine hmove.out_congr (or_congr_left ?_)
      exact (hopen j).trans (or_iff_right hne)
  · rcases (hopen j).mp hj with rfl | hj
    · exact hfreed
    · exact h.opened j hj
  · exact h.owesFree_goto (fun _ => rfl) u j
  · exact h.closing_goto (p := .outside) nofun u j
  · intro huses ho
    rcases hssl o j ho with ⟨-, rfl⟩ | ho
    · exact hfreed
    · exact h.uses_goto (fun _ => rfl) u o j huses ho

/-! ### Steps of `Cleanup` -/

/-- `SSL_free`. The thread has the duty, so no other thread is to free the object. -/
theorem Inv.free (h : Inv s) (hq : s.tls t = .freeing i)
    (hquiet : ∀ o, s.ssl o = some i → ∀ u, (s.tls u).uses o = false) :
    Inv { s.goto t (.closing i) with freed := Function.update s.freed i (s.freed i + 1) } := by
  have howes : (s.tls t).owes i = true := by simp [hq, TlsPc.owes]
  obtain ⟨hobject, hsettled⟩ := (h.duty i).of_mem howes
  have hlt : i < s.objects := of_decide_eq_true hobject
  have hfreed : s.freed i = 0 := h.owesFree t i (by simp [hq, TlsPc.owesFree])
  have hone : Function.update s.freed i (s.freed i + 1) i = 1 := by
    rw [Function.update_self, hfreed]
  have hother (j : Nat) (hj : j ≠ i) : Function.update s.freed i (s.freed i + 1) j = s.freed j :=
    Function.update_of_ne hj ..
  refine ⟨h.known, h.ssl, h.inj, fun u j => ?_, fun j => ?_, fun j hj => ?_, fun j hj => ?_,
    fun u j => ?_, fun u j => ?_, fun j hj => ?_, fun u o j => ?_, h.late⟩
  · exact h.unbound_goto (fun _ => rfl) u j
  · refine (h.duty j).move ?_
    rw [hq]
    rfl
  · have hne : j ≠ i := by
      have hle : s.objects ≤ j := hj
      omega
    exact (hother j hne).trans (h.new j hj)
  · have hne : j ≠ i := by
      rintro rfl
      exact hsettled (Or.inl hj)
    exact (hother j hne).trans (h.opened j hj)
  · refine forall_goto (p := .closing i) (A := fun q => q.owesFree j = true →
      Function.update s.freed i (s.freed i + 1) j = 0) (fun u hu hfree => ?_) nofun u
    have hne : j ≠ i := by
      rintro rfl
      exact hu ((h.duty j).unique (TlsPc.owes_of_owesFree hfree) howes)
    exact (hother j hne).trans (h.owesFree u j hfree)
  · refine forall_goto (p := .closing i) (A := fun q => q = .closing j →
      Function.update s.freed i (s.freed i + 1) j = 1) (fun u hu hclosing => ?_) (fun hp => ?_) u
    · have hne : j ≠ i := by
        rintro rfl
        exact hu ((h.duty j).unique (by simp [hclosing, TlsPc.owes]) howes)
      exact (hother j hne).trans (h.closing u j hclosing)
    · obtain rfl : i = j := by simpa using hp
      exact hone
  · have hne : j ≠ i := by
      rintro rfl
      exact hsettled (Or.inr hj)
    exact (hother j hne).trans (h.closed j hj)
  · refine forall_goto (p := .closing i) (A := fun q => q.uses o = true → s.ssl o = some j →
      Function.update s.freed i (s.freed i + 1) j = 0) (fun u hu huses ho => ?_) nofun u
    have hne : j ≠ i := by
      rintro rfl
      rw [hquiet o ho u] at huses
      cases huses
    exact (hother j hne).trans (h.uses u o j huses ho)

/-- `closesocket`. -/
theorem Inv.close (h : Inv s) (hq : s.tls t = .closing i) :
    Inv { s.goto t .outside with closed := Function.update s.closed i true } := by
  have howes : (s.tls t).owes i = true := by simp [hq, TlsPc.owes]
  refine ⟨h.known, h.ssl, h.inj, fun u j => ?_, fun j => ?_, h.new, h.opened, fun u j => ?_,
    fun u j => ?_, fun j hj => ?_, fun u o j => ?_, h.late⟩
  · exact h.unbound_goto (fun _ => rfl) u j
  · show Token (TlsPc.owes j) (Function.update s.tls t .outside) _ _
    rcases eq_or_ne j i with rfl | hne
    · exact (h.duty j).give howes rfl (Or.inr (Function.update_self ..))
    · have hmove := (h.duty j).move (i := t) (p := .outside) (by simp [hq, TlsPc.owes, hne.symm])
      refine hmove.out_congr (or_congr_right ?_)
      show Function.update s.closed i true j = true ↔ _
      rw [Function.update_of_ne hne]
  · exact h.owesFree_goto (fun _ => rfl) u j
  · exact h.closing_goto (p := .outside) nofun u j
  · by_cases hne : j = i
    · rw [hne]
      exact h.closing t i hq
    · have hj : s.closed j = true := by
        rw [← hj]
        exact (Function.update_of_ne hne ..).symm
      exact h.closed j hj
  · exact h.uses_goto (fun _ => rfl) u o j

/-- A step of `NetworkServer` that closes no session with an object. -/
theorem Inv.server (h : Inv s) {server : NetworkServer} (hknown : Known server)
    (hcreated : s.server.created ≤ server.created)
    (hclose : ∀ o i, s.ssl o = some i → server.shouldClose o = s.server.shouldClose o) :
    Inv { s with server := server } := by
  have hopen (i : Nat) : Open { s with server := server } i ↔ s.Open i := by
    constructor
    · rintro ⟨o, ho, hopen⟩
      exact ⟨o, ho, (hclose o i ho).symm.trans hopen⟩
    · rintro ⟨o, ho, hopen⟩
      exact ⟨o, ho, (hclose o i ho).trans hopen⟩
  refine ⟨hknown, fun o i ho => ?_, h.inj, h.unbound, fun i => ?_, h.new, fun i hi => ?_, h.owesFree,
    h.closing, h.closed, h.uses, h.late⟩
  · have hlt := h.ssl o i ho
    exact ⟨Nat.lt_of_lt_of_le hlt.1 hcreated, hlt.2⟩
  · exact (h.duty i).out_congr (or_congr_left (hopen i))
  · exact h.opened i ((hopen i).mp hi)

/-- The exchange in `Cleanup` gives the duty of the open session to the thread. -/
theorem Inv.exchange (h : Inv s) (hq : ∀ i, (s.tls t).owes i = false) {server : NetworkServer}
    (hknown : Known server) (hcreated : server.created = s.server.created)
    (hclose : server.shouldClose = Function.update s.server.shouldClose o true)
    (hopen : s.server.shouldClose o = false) (ho : s.ssl o = some i) :
    Inv { s.goto t (.freeing i) with server := server } := by
  have hopened : s.Open i := ⟨o, ho, hopen⟩
  have hfreed := h.opened i hopened
  -- The sessions that stay open are the other ones.
  have hopen' (j : Nat) : (∃ o', s.ssl o' = some j ∧ server.shouldClose o' = false) ↔
      j ≠ i ∧ s.Open j := by
    rw [hclose]
    constructor
    · rintro ⟨o', ho', hopen'⟩
      have hne : o' ≠ o := by
        rintro rfl
        rw [Function.update_self] at hopen'
        cases hopen'
      rw [Function.update_of_ne hne] at hopen'
      refine ⟨?_, o', ho', hopen'⟩
      rintro rfl
      exact hne (h.inj o' o _ ho' ho)
    · rintro ⟨hj, o', ho', hopen'⟩
      have hne : o' ≠ o := by
        rintro rfl
        exact hj (Option.some.inj (ho'.symm.trans ho))
      exact ⟨o', ho', by rw [Function.update_of_ne hne, hopen']⟩
  have hclosed : s.closed i ≠ true := by
    intro hclosed
    have hone := h.closed i hclosed
    omega
  refine ⟨hknown, fun o' j ho' => ?_, h.inj, fun u j => ?_, fun j => ?_, h.new, fun j hj => ?_,
    fun u j => ?_, fun u j => ?_, h.closed, fun u o' j => ?_, h.late⟩
  · have hlt := h.ssl o' j ho'
    exact ⟨Nat.lt_of_lt_of_eq hlt.1 hcreated.symm, hlt.2⟩
  · exact h.unbound_goto (fun _ => rfl) u j
  · show Token (TlsPc.owes j) (Function.update s.tls t (.freeing i)) _ _
    rcases eq_or_ne j i with rfl | hne
    · refine (h.duty j).accept (Or.inl hopened) (by simp [TlsPc.owes]) ?_
      rintro (hj | hj)
      · exact ((hopen' j).mp hj).1 rfl
      · exact hclosed hj
    · have hmove := (h.duty j).move (i := t) (p := .freeing i) (by rw [hq]; simp [TlsPc.owes, hne.symm])
      refine hmove.out_congr (or_congr_left ?_)
      exact (hopen' j).trans (and_iff_right hne)
  · exact h.opened j ((hopen' j).mp hj).2
  · refine forall_goto (p := .freeing i) (A := fun q => q.owesFree j = true → s.freed j = 0)
      (fun u _ => h.owesFree u j) (fun hp => ?_) u
    obtain rfl : i = j := by simpa [TlsPc.owesFree] using hp
    exact hfreed
  · exact h.closing_goto (p := .freeing i) nofun u j
  · exact h.uses_goto (fun _ => rfl) u o' j

/-! ### Steps of `NetworkServer` -/

/-- Where a step of `NetworkServer` leads to. -/
theorem enters_spec {answers : NetworkServer.Answers} {server : NetworkServer}
    (hstep : s.server.runStep t answers = some server) :
    (∃ caller o pc, s.enters t server = .buffers caller o pc ∧ closes s.server t = none ∧
      (s.server.shouldClose o = false ∨ ∃ n, s.server.pc t = .postReceiveLocked o n)) ∨
    (∃ o i, s.enters t server = .freeing i ∧ closes s.server t = some o ∧
      s.server.shouldClose o = false ∧ s.ssl o = some i) ∨
    (s.enters t server = .outside ∧
      ∀ o, closes s.server t = some o → s.server.shouldClose o = true ∨ s.ssl o = none) := by
  unfold enters
  split
  case h_1 o n hq => exact Or.inl ⟨_, o, _, rfl, by simp [closes, hq], Or.inr ⟨n, hq⟩⟩
  case h_2 handler o _ _ hq hp =>
    exact Or.inl ⟨_, o, _, rfl, by simp [closes, hq], Or.inl (open_of_sendLoop hq hstep hp)⟩
  case h_3 =>
    right
    split
    case h_2 hnone =>
      refine Or.inr ⟨rfl, fun o ho => ?_⟩
      rw [hnone] at ho
      cases ho
    case h_1 o hcloses =>
      unfold cleanup
      split
      case h_1 i hopen hssl => exact Or.inl ⟨o, i, rfl, hcloses, hopen, hssl⟩
      case h_2 hnot =>
        refine Or.inr ⟨rfl, fun o' ho' => ?_⟩
        obtain rfl := Option.some.inj (hcloses.symm.trans ho')
        cases hclose : s.server.shouldClose o with
        | true => exact Or.inl rfl
        | false =>
          cases hssl : s.ssl o with
          | none => exact Or.inr rfl
          | some i => exact absurd hssl (hnot i hclose)

theorem Inv.runServer (h : Inv s) (hq : ∀ i, (s.tls t).owes i = false)
    {answers : NetworkServer.Answers}
    (hfresh : ∀ o n, s.server.pc t = .postReceiveLocked o n → ∀ i, s.ssl o = some i → s.freed i = 0)
    (hstep : s.runServer t answers = some s') : Inv s' := by
  obtain ⟨server, hserver, rfl⟩ := Option.map_eq_some_iff.mp hstep
  obtain ⟨hcreated, hclose⟩ := closeNext_of_runStep hserver
  have hknown : Known server := known_step (a := .run t answers) h.known hserver
  have hquiet {p : TlsPc} (hsame : ∀ o i, s.ssl o = some i →
      server.shouldClose o = s.server.shouldClose o) (hp : ∀ i, p.owes i = false)
      (huses : ∀ o i, p.uses o = true → s.ssl o = some i → s.freed i = 0) :
      Inv { s.goto t p with server := server } := by
    have hfree (i : Nat) : p.owesFree i ≠ true := by
      intro hpi
      have := TlsPc.owes_of_owesFree hpi
      rw [hp i] at this
      cases this
    refine Inv.goto (t := t) (p := p) (h.server hknown (Nat.le_of_eq hcreated.symm) hsame) (fun i hi => ?_)
      (fun i => (hp i).trans (hq i).symm) (fun i hi => absurd hi (hfree i)) (fun i hi => ?_) huses
    · exact absurd (TlsPc.owesFree_of_accepts hi) (hfree i)
    · have := hp i
      rw [hi] at this
      simp [TlsPc.owes] at this
  rcases enters_spec hserver with ⟨caller, o, pc, hp, hnone, hreason⟩ | ⟨o, i, hp, hcloses, hopen, ho⟩ |
    ⟨hp, hreason⟩
  · rw [hp]
    refine hquiet (fun o' i _ => ?_) (fun i => rfl) (fun o' i huses ho' => ?_)
    · rw [hclose, closeNext, hnone]
    · obtain rfl := TlsPc.eq_of_uses huses
      rcases hreason with hopen | ⟨n, hq⟩
      · exact h.opened i ⟨o, ho', hopen⟩
      · exact hfresh o n hq i ho'
  · rw [hp]
    refine h.exchange hq hknown hcreated ?_ hopen ho
    rw [hclose, closeNext, hcloses]
  · rw [hp]
    refine hquiet (fun o' i ho' => ?_) (fun i => rfl) nofun
    rw [hclose]
    cases hcloses : closes s.server t with
    | none => rw [closeNext, hcloses]
    | some o =>
      rw [closeNext, hcloses]
      by_cases heq : o' = o
      · rcases hreason o hcloses with hclosed | hnone
        · simp [heq, hclosed]
        · rw [heq, hnone] at ho'
          cases ho'
      · simp [Function.update_of_ne heq]

theorem Inv.serverStep (h : Inv s) {a : NetworkServer.Action} (hok : s.Orderly (.server a))
    (hstep : s.serverStep a = some s') : Inv s' := by
  cases a with
  | start u handler =>
    unfold TlsObjects.serverStep at hstep
    split at hstep
    case h_1 => cases hstep
    case h_3 heq => cases heq
    case h_2 u handler hne heq =>
      cases heq
      split at hstep
      case isFalse => cases hstep
      case isTrue hout =>
      obtain ⟨server, hserver, rfl⟩ := Option.map_eq_some_iff.mp hstep
      obtain ⟨hclose, -⟩ := same_of_startStep hserver
      have hle := (NetworkServer.adds_of_startStep hserver).created_le
      refine h.server (known_step (a := .start u handler) h.known hserver) hle fun o i _ => ?_
      rw [hclose]
  | run u answers =>
    have hfresh : ∀ o n, s.server.pc u = .postReceiveLocked o n →
        ∀ i, s.ssl o = some i → s.freed i = 0 := by
      intro o n hq
      simpa [Orderly, hq] using hok
    simp only [TlsObjects.serverStep] at hstep
    split at hstep
    case h_1 hq => exact h.runServer (fun i => by rw [hq]; rfl) hfresh hstep
    case h_2 hq => exact h.runServer (fun i => by rw [hq]; rfl) hfresh hstep
    case h_3 => cases hstep

/-! ### Calls of OpenSSL -/

/-- A call with an object that has not been freed. -/
theorem call_eq (c : TlsCall) (hfreed : ∀ i, s.ssl o = some i → s.freed i = 0) : s.call c o = s := by
  unfold call
  cases hssl : s.ssl o with
  | none => rfl
  | some i => simp [hfreed i hssl]

theorem Inv.tlsStep (h : Inv s) {answers : Answers} (hok : s.Orderly (.tls t answers))
    (hstep : s.tlsStep t answers = some s') : Inv s' := by
  unfold TlsObjects.tlsStep at hstep
  cases hq : s.tls t with
  | outside =>
    rw [hq] at hstep
    cases hstep
  | accepting i =>
    have hyes : answers.sslAccept = true := by simpa [Orderly, hq] using hok
    simp only [hq, hyes, if_true] at hstep
    obtain rfl := Option.some.inj hstep
    refine h.goto (fun j => ?_) (fun j => ?_) (fun j => ?_) nofun nofun
    all_goals simp [hq, TlsPc.accepts, TlsPc.owes, TlsPc.owesFree]
  | accepted i =>
    simp only [hq] at hstep
    split at hstep
    case isTrue =>
      obtain ⟨server, hserver, rfl⟩ := Option.map_eq_some_iff.mp hstep
      exact h.create hq hserver
    case isFalse =>
      obtain rfl := Option.some.inj hstep
      refine h.goto nofun (fun j => ?_) (fun j => ?_) nofun nofun
      all_goals simp [hq, TlsPc.owes, TlsPc.owesFree]
  | freeing i =>
    simp only [hq] at hstep
    obtain rfl := Option.some.inj hstep
    exact h.free hq (by simpa [Orderly, hq] using hok)
  | closing i =>
    simp only [hq] at hstep
    obtain rfl := Option.some.inj hstep
    exact h.close hq
  | buffers caller o pc =>
    -- the loop goes on with the object of its session, which has not been freed
    have hgoto (huses : (s.tls t).uses o = true) (pc' : BufferPc) :
        Inv (s.goto t (.buffers caller o pc')) := by
      refine h.goto nofun (fun i => by rw [hq]; rfl) nofun nofun fun o' i huses' ho' => ?_
      obtain rfl := TlsPc.eq_of_uses huses'
      exact h.uses t o i huses ho'
    cases pc with
    | returned value =>
      rw [hq] at hstep
      cases hstep
    | _ =>
      simp only [hq] at hstep
      have huses : (s.tls t).uses o = true := by simp [hq, TlsPc.uses]
      split at hstep
      case h_1 c pc' _ =>
        obtain rfl := Option.some.inj hstep
        rw [call_eq c fun i ho => h.uses t o i huses ho]
        exact hgoto huses pc'
      case h_2 pc' _ =>
        obtain rfl := Option.some.inj hstep
        exact hgoto huses pc'

/-! ## The life cycle -/

theorem Inv.step (h : Inv s) {a : Action} (hok : s.Orderly a) (hstep : s.step a = some s') : Inv s' := by
  cases a with
  | accept t => exact h.acceptStep hstep
  | tls t answers => exact h.tlsStep hok hstep
  | server a => exact h.serverStep hok hstep

/-- The thread that has the duty of an object is to free it or has freed it. -/
theorem Inv.freed_of_owes (h : Inv s) (howes : (s.tls t).owes i = true) :
    (s.tls t).owesFree i = true ∨ s.freed i = 1 := by
  cases hq : s.tls t with
  | closing j =>
    obtain rfl : j = i := by simpa [hq, TlsPc.owes] using howes
    exact Or.inr (h.closing t j hq)
  | accepting j | accepted j | freeing j =>
    rw [hq] at howes
    exact Or.inl howes
  | _ => simp [hq, TlsPc.owes] at howes

theorem Inv.once (h : Inv s) (i : Nat) : s.freed i ≤ 1 := by
  by_cases hlt : i < s.objects
  · have hduty := h.duty i
    rw [decide_eq_true hlt] at hduty
    rcases hduty.exists_of_on with (hopen | hclosed) | ⟨t, howes⟩
    · exact (h.opened i hopen).trans_le (Nat.zero_le _)
    · exact (h.closed i hclosed).le
    · rcases h.freed_of_owes howes with hfree | hone
      · exact (h.owesFree t i hfree).trans_le (Nat.zero_le _)
      · exact hone.le
  · exact (h.new i (Nat.le_of_not_lt hlt)).trans_le (Nat.zero_le _)

/-- The object of an erased session has been freed, or a thread is about to. -/
theorem Inv.erased (h : Inv s) (ho : s.ssl o = some i) (herased : s.Erased o) :
    s.freed i = 1 ∨ ∃ t, s.tls t = .freeing i := by
  obtain ⟨hlt, hnot, hnone⟩ := herased
  have hclose : s.server.shouldClose o = true := by
    refine h.known.erased o hlt hnot fun t ht => ?_
    obtain ⟨hcreated, hlocked⟩ := hnone t
    cases hq : s.server.pc t <;> simp_all [NetworkServer.Pc.accepts]
  have hduty := h.duty i
  rw [decide_eq_true (h.ssl o i ho).2] at hduty
  rcases hduty.exists_of_on with (⟨o', ho', hopen⟩ | hclosed) | ⟨t, howes⟩
  · rw [h.inj o' o i ho' ho, hclose] at hopen
    cases hopen
  · exact Or.inl (h.closed i hclosed)
  · cases hq : s.tls t with
    | freeing j =>
      obtain rfl : j = i := by simpa [hq, TlsPc.owes] using howes
      exact Or.inr ⟨t, hq⟩
    | closing j =>
      obtain rfl : j = i := by simpa [hq, TlsPc.owes] using howes
      exact Or.inl (h.closing t j hq)
    | accepting j | accepted j =>
      exact absurd ho (h.unbound t i (by simpa [hq, TlsPc.owes, TlsPc.accepts] using howes) o)
    | _ => simp [hq, TlsPc.owes] at howes

theorem Inv.lifeCycle (h : Inv s) : s.LifeCycle where
  once := h.once
  closed := h.closed
  erased _ _ := h.erased
  late := h.late

end Objects

/-- **The SSL objects have a sound life cycle.** In every state that a run leads to, if all its steps are
orderly: every object is freed at most once, and has been when its connection is closed; the object of
an erased session has been freed, or a thread is about to free it; and nothing is called with an object
that has been freed. -/
theorem lifeCycle_of_orderly {actor : String} {as : List Action} {s : TlsObjects}
    (hok : Meets step Orderly (init actor) as) (hrun : run step (init actor) as = some s) :
    s.LifeCycle :=
  (run_invariant (fun _ _ _ h hok hstep => Inv.step h hok hstep) (inv_init actor) hok hrun).lifeCycle

/-- A connection whose first receive cannot be posted: the session is closed and erased. -/
def refusedRun : List Action :=
  [.accept 0, .tls 0 {}, .tls 0 {}, .server (.run 0 {}), .server (.run 0 {}), .server (.run 0 {}),
    .server (.run 0 { wsaRecv := false }), .server (.run 0 {}), .server (.run 0 {}),
    .server (.run 0 {}), .server (.run 0 {}), .tls 0 {}, .tls 0 {}, .server (.run 0 {}),
    .server (.run 0 {}), .server (.run 0 {}), .server (.run 0 {})]

theorem lifeCycle_of_orderly_refused : ∃ s, run step (init "auth") refusedRun = some s ∧
    s.LifeCycle ∧ s.freed 0 = 1 ∧ s.closed 0 = true := by
  have hmeets : Meets step Orderly (init "auth") refusedRun := by
    refine .cons trivial rfl (.cons rfl rfl (.cons trivial rfl (.cons trivial rfl (.cons trivial rfl
      (.cons trivial rfl (.cons trivial rfl (.cons trivial rfl (.cons trivial rfl (.cons trivial rfl
      (.cons trivial rfl (.cons ?quiet rfl (.cons trivial rfl (.cons trivial rfl (.cons trivial rfl
      (.cons trivial rfl (.cons trivial rfl trivial))))))))))))))))
    -- no other thread has ever left its place
    intro o _ u
    rcases eq_or_ne u 0 with rfl | hne
    · rfl
    · simp only [goto, Function.update_of_ne hne]
      rfl
  exact ⟨_, rfl, lifeCycle_of_orderly hmeets (show run step (init "auth") refusedRun = _ from rfl),
    rfl, rfl⟩

/-- `SSL_accept` fails: the connection is closed and the object is never freed. And a receive that was
queued before `DisconnectSession` is handled behind `SSL_free`. -/
theorem lifeCycle_fails :
    (∃ s, run step (init "auth") [.accept 0, .tls 0 { sslAccept := false }, .tls 0 {}] = some s ∧
      s.closed 0 = true ∧ (∀ o, s.ssl o ≠ some 0) ∧ s.freed 0 = 0) ∧
    ∃ s, run step (init "auth")
      [.accept 0, .tls 0 {}, .tls 0 {}, .server (.run 0 {}), .server (.run 0 {}),
        .server (.run 0 {}), .server (.run 0 {}),
        .server (.start 1 (.disconnectSession 0)), .server (.run 1 {}), .server (.run 1 {}),
        .server (.run 1 {}), .server (.run 1 {}), .tls 1 {}, .tls 1 {},
        .server (.start 0 (.completion .receive 0 true 5)), .server (.run 0 {}), .server (.run 0 {}),
        .tls 0 { decryptable := true }] = some s ∧
      s.freed 0 = 1 ∧ s.lateCalls = [(.bioWrite, 0)] :=
  ⟨⟨_, rfl, rfl, nofun, rfl⟩, _, rfl, rfl, rfl⟩

end RatkiniaServer.TlsObjects
