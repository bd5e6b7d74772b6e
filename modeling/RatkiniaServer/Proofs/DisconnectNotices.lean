import RatkiniaServer.Proofs.ClosedSessions

/-!
# Disconnect notices

A history of a `NetworkServer` has each session that a thread erases and each message that a thread
pushes to an actor. Of one context it has the messages that `PostReceive` dispatches, and then, once
its session is erased, the notice of the thread that has erased it and nothing else.
-/

namespace RatkiniaServer

/-- The context that a message is about. -/
def ActorMessage.context : ActorMessage → UInt32
  | .cts context _ _ | .sessionDisconnected context => context

namespace NetworkServer

open Transition

variable {s s' r : NetworkServer} {t o : Nat} {p q : Pc} {a : Action}

/-! ## Histories -/

/-- What a history has: that a thread erases a session with its associated actor, and that it pushes a
message to an actor. -/
inductive Event
  | erased (t o : Nat) (actor : String)
  | pushed (t : Nat) (actor : String) (message : ActorMessage)
  deriving DecidableEq

/-- A server with its history. -/
structure Recorded where
  server : NetworkServer
  history : List Event

/-- The session that a step of the thread `t` erases. -/
def erasures (s : NetworkServer) (t : Nat) : List Event :=
  match s.pc t with
  | .cleanupLocked context _ =>
    match s.sessions context with
    | some o => [.erased t o (s.associatedActor o)]
    | none => []
  | _ => []

/-- What the step of the thread `t` from `s` to `s'` adds to the history. -/
def events (s : NetworkServer) (t : Nat) (s' : NetworkServer) : List Event :=
  s.erasures t ++ (s'.pushed.drop s.pushed.length).map fun push => .pushed t push.1 push.2

/-- A step of a server with its history. -/
def recordStep (r : Recorded) (a : Action) : Option Recorded :=
  (r.server.step a).map fun s' => ⟨s', r.history ++ r.server.events a.thread s'⟩

/-- The message that a thread pushes, with the actor that it is for. -/
def Event.push : Event → Option (String × ActorMessage)
  | .erased _ _ _ => none
  | .pushed _ actor message => some (actor, message)

/-- The context that an event is about. -/
def Event.context : Event → UInt32
  | .erased _ o _ => contextOf o
  | .pushed _ _ message => message.context

/-- `PostReceive` pushes a message. -/
def Event.isCts : Event → Bool
  | .pushed _ _ (.cts _ _ _) => true
  | _ => false

/-- `PostReceive` locks the table for a session that is in it. No more is asked here of the assumption
that no step is on an erased session. -/
def ReceivesFound (s : NetworkServer) : Action → Prop
  | .run t _ =>
    match s.pc t with
    | .postReceive o _ => s.sessions (contextOf o) = some o
    | _ => True
  | .start _ _ => True

/-! ## What a step adds -/

/-- The context of the notice that the thread still has to push. -/
def Pc.notifies : Pc → Option UInt32
  | .cleanupErased context (some _) _ => some context
  | _ => none

/-- The session that `PostAccept` has made and not yet emplaced. -/
def Pc.accepts : Pc → Option Nat
  | .acceptCreated o | .acceptLocked o => some o
  | _ => none

/-- The session for which `PostReceive` holds the table in shared mode. -/
def Pc.receives : Pc → Option Nat
  | .postReceiveLocked o _ | .received o _ | .rearm o | .rearming o | .draining o _ => some o
  | _ => none

theorem Pc.shared_of_receives (h : p.receives = some o) : 0 < p.shared := by
  cases p <;> simp_all [receives, shared]

/-- A step of the thread `t`, by what it adds to the history. -/
inductive Adds (s : NetworkServer) (t : Nat) : NetworkServer → Prop
  | quiet {s' : NetworkServer} (p : Pc) (hpc : s'.pc = Function.update s.pc t p)
      (hsame : (s'.created, s'.sessions, s'.pushed) = (s.created, s.sessions, s.pushed))
      (hnotifies : (s.pc t).notifies = none ∧ p.notifies = none)
      (haccepts : p.accepts = (s.pc t).accepts)
      (hreceives : ∀ o, p.receives = some o →
        (s.pc t).receives = some o ∨ ∃ n, s.pc t = .postReceive o n)
      (hnone : ∀ context held, s.pc t = .cleanupLocked context held → s.sessions context = none) :
      Adds s t s'
  | accept {s' : NetworkServer} (hq : s.pc t = .idle)
      (hpc : s'.pc = Function.update s.pc t (.acceptCreated s.created))
      (hsame : (s'.created, s'.sessions, s'.pushed) = (s.created + 1, s.sessions, s.pushed)) :
      Adds s t s'
  | emplace {s' : NetworkServer} (o : Nat) (hq : s.pc t = .acceptLocked o)
      (hfree : s.sessions (contextOf o) = none)
      (hpc : s'.pc = Function.update s.pc t (.acceptEmplaced o))
      (hsame : (s'.created, s'.sessions, s'.pushed) =
        (s.created, Function.update s.sessions (contextOf o) (some o), s.pushed)) :
      Adds s t s'
  | dispatch (o : Nat) (value : Bool) (messageType : UInt16) (body : Bytes)
      (hq : s.pc t = .draining o value) :
      Adds s t { s with
        pushed := s.pushed ++ [(s.associatedActor o, .cts (contextOf o) messageType body)] }
  | erase (context : UInt32) (held : Bool) (o : Nat) (hq : s.pc t = .cleanupLocked context held)
      (hfound : s.sessions context = some o) : Adds s t (s.erased t context o held)
  | notify {s' : NetworkServer} (context : UInt32) (actor : String) (held : Bool)
      (hq : s.pc t = .cleanupErased context (some actor) held)
      (hpc : s'.pc = Function.update s.pc t .idle)
      (hsame : (s'.created, s'.sessions, s'.pushed) =
        (s.created, s.sessions, s.pushed ++ [(actor, .sessionDisconnected context)])) :
      Adds s t s'

theorem fields_eq {n : Nat} {sessions : UInt32 → Option Nat} {pushed : List (String × ActorMessage)}
    (hsame : (s'.created, s'.sessions, s'.pushed) = (n, sessions, pushed)) :
    s'.created = n ∧ s'.sessions = sessions ∧ s'.pushed = pushed := by
  simpa only [Prod.mk.injEq] using hsame

/-- A step that adds nothing. -/
theorem Adds.of_quiet (hq : s.pc t = q) (hpc : s'.pc = Function.update s.pc t p)
    (hsame : (s'.created, s'.sessions, s'.pushed) = (s.created, s.sessions, s.pushed))
    (hnotifies : q.notifies = none ∧ p.notifies = none)
    (haccepts : p.accepts = q.accepts)
    (hreceives : p.receives = none ∨ p.receives = q.receives)
    (hnone : ∀ context held, q ≠ .cleanupLocked context held) : Adds s t s' := by
  subst hq
  refine .quiet p hpc hsame hnotifies haccepts ?_ fun context held h => absurd h (hnone context held)
  intro o ho
  rcases hreceives with h | h
  · cases h.symm.trans ho
  · rw [h] at ho
    exact Or.inl ho

/-- What a step of a thread adds to the history. -/
theorem Runs.adds (h : Runs s t q p r) (hq : s.pc t = q) : Adds s t (r.goto t p) := by
  cases h with
  | acceptLocked o hfree => exact .emplace o hq hfree rfl rfl
  | dispatch o value messageType body =>
    have hdispatch := Adds.dispatch o value messageType body hq
    rwa [goto, ← hq, Function.update_eq_self]
  | erase context held o hfound => exact .erase context held o hq hfound
  | notify context actor held => exact .notify context actor held hq rfl rfl
  | postReceive o n =>
    refine .quiet (.postReceiveLocked o n) rfl rfl ⟨by rw [hq]; rfl, rfl⟩ (by rw [hq]; rfl) ?_ ?_
    · intro o' ho'
      cases ho'
      exact Or.inr ⟨n, hq⟩
    · intro context held hq'
      cases hq.symm.trans hq'
  | erase_none context held hfound =>
    refine .quiet (.cleanupErased context none held) rfl rfl ⟨by rw [hq]; rfl, rfl⟩
      (by rw [hq]; rfl) (fun _ ho => by cases ho) ?_
    intro context' held' hq'
    cases hq.symm.trans hq'
    exact hfound
  | postReceiveLocked | received | received_fails | rearm | rearm_fails | rearming | rearming_fails =>
    exact .of_quiet hq rfl rfl ⟨rfl, rfl⟩ rfl (Or.inr rfl) fun _ _ h => by cases h
  | _ => exact .of_quiet hq rfl rfl ⟨rfl, rfl⟩ rfl (Or.inl rfl) fun _ _ h => by cases h

theorem adds_of_runStep {answers : Answers} (hstep : s.runStep t answers = some s') :
    Adds s t s' := by
  obtain ⟨p, r, h, rfl⟩ := runs_of_runStep hstep
  exact h.adds rfl

/-- What a thread that begins adds to the history. -/
theorem adds_of_startStep {handler : Handler} (hstep : s.startStep t handler = some s') :
    Adds s t s' := by
  obtain ⟨hq, p, r, h, rfl⟩ := begins_of_startStep hstep
  cases h with
  | accept => exact .accept hq rfl rfl
  | _ => exact .of_quiet hq rfl rfl ⟨rfl, rfl⟩ rfl (Or.inl rfl) nofun

theorem adds_of_step (hstep : s.step a = some s') : Adds s a.thread s' := by
  cases a with
  | start t handler => exact adds_of_startStep hstep
  | run t answers => exact adds_of_runStep hstep

/-! ## Sessions and their histories -/

theorem Adds.created_le (h : Adds s t s') : s.created ≤ s'.created := by
  cases h with
  | quiet p hpc hsame => exact Nat.le_of_eq (fields_eq hsame).1.symm
  | accept hq hpc hsame =>
    rw [(fields_eq hsame).1]
    exact Nat.le_succ _
  | emplace o hq hfree hpc hsame => exact Nat.le_of_eq (fields_eq hsame).1.symm
  | dispatch o value messageType body hq => exact Nat.le_refl _
  | erase context held o hq hfound => exact Nat.le_refl _
  | notify context actor held hq hpc hsame => exact Nat.le_of_eq (fields_eq hsame).1.symm

/-- Where only the thread `t` moves, what `f` reads off a program counter was there before, or comes
from the move. -/
theorem eq_some_of_update {f : Pc → Option Nat} {fresh : Prop} {u : Nat}
    (hpc : s'.pc = Function.update s.pc t p) (hp : f p = some o → f (s.pc t) = some o ∨ fresh)
    (h : f (s'.pc u) = some o) : f (s.pc u) = some o ∨ fresh := by
  rw [hpc] at h
  by_cases hu : u = t
  · rw [hu, Function.update_self] at h
    rw [hu]
    exact hp h
  · rw [Function.update_of_ne hu] at h
    exact Or.inl h

/-- The thread `t` goes to a program counter that accepts no new session. -/
theorem accepts_of_update {u : Nat} (hpc : s'.pc = Function.update s.pc t p)
    (hp : ∀ o, p.accepts = some o → (s.pc t).accepts = some o) (h : (s'.pc u).accepts = some o) :
    (s.pc u).accepts = some o :=
  (eq_some_of_update hpc (fun hpo => Or.inl (hp o hpo)) h).elim id False.elim

theorem Adds.accepts {u : Nat} (h : Adds s t s') (ho : (s'.pc u).accepts = some o) :
    (s.pc u).accepts = some o ∨ (o = s.created ∧ u = t ∧ s'.created = s.created + 1) := by
  cases h with
  | quiet p hpc hsame hnotifies haccepts =>
    exact Or.inl (accepts_of_update hpc (fun o ho => haccepts ▸ ho) ho)
  | accept hq hpc hsame =>
    rw [hpc] at ho
    by_cases hu : u = t
    · rw [hu, Function.update_self] at ho
      exact Or.inr ⟨(Option.some.inj ho).symm, hu, (fields_eq hsame).1⟩
    · rw [Function.update_of_ne hu] at ho
      exact Or.inl ho
  | emplace o' hq hfree hpc hsame => exact Or.inl (accepts_of_update hpc nofun ho)
  | dispatch o' value messageType body hq => exact Or.inl ho
  | erase context held o' hq hfound =>
    have hpc : (s.erased t context o' held).pc = Function.update s.pc t _ := rfl
    exact Or.inl (accepts_of_update hpc nofun ho)
  | notify context actor held hq hpc hsame => exact Or.inl (accepts_of_update hpc nofun ho)

/-- A session that `PostAccept` has made stays with it until it is in the table. -/
theorem Adds.accepts_or_inTable {u : Nat} (h : Adds s t s') (ho : (s.pc u).accepts = some o) :
    (s'.pc u).accepts = some o ∨ s'.InTable o := by
  have hother : ∀ p, s'.pc = Function.update s.pc t p → u ≠ t → (s'.pc u).accepts = some o := by
    intro p hpc hu
    rwa [hpc, Function.update_of_ne hu]
  by_cases hu : u = t
  · subst hu
    cases h with
    | quiet p hpc hsame hnotifies haccepts =>
      left
      rwa [hpc, Function.update_self, haccepts]
    | accept hq hpc hsame =>
      rw [hq] at ho
      cases ho
    | emplace o' hq hfree hpc hsame =>
      rw [hq] at ho
      cases ho
      refine Or.inr ⟨contextOf o, ?_⟩
      rw [(fields_eq hsame).2.1, Function.update_self]
    | dispatch o' value messageType body hq => exact Or.inl ho
    | erase context held o' hq hfound =>
      rw [hq] at ho
      cases ho
    | notify context actor held hq hpc hsame =>
      rw [hq] at ho
      cases ho
  · left
    cases h with
    | quiet p hpc hsame => exact hother p hpc hu
    | accept hq hpc hsame => exact hother _ hpc hu
    | emplace o' hq hfree hpc hsame => exact hother _ hpc hu
    | dispatch o' value messageType body hq => exact ho
    | erase context held o' hq hfound => exact hother _ rfl hu
    | notify context actor held hq hpc hsame => exact hother _ hpc hu

/-- A new session is with the thread that has made it. -/
theorem Adds.lt_or_accepts (h : Adds s t s') (ho : o < s'.created) :
    o < s.created ∨ (s'.pc t).accepts = some o := by
  cases h with
  | quiet p hpc hsame => exact Or.inl ((fields_eq hsame).1 ▸ ho)
  | accept hq hpc hsame =>
    rw [(fields_eq hsame).1] at ho
    rcases Nat.lt_succ_iff_lt_or_eq.mp ho with ho | rfl
    · exact Or.inl ho
    · right
      rw [hpc, Function.update_self]
      rfl
  | emplace o' hq hfree hpc hsame => exact Or.inl ((fields_eq hsame).1 ▸ ho)
  | dispatch o' value messageType body hq => exact Or.inl ho
  | erase context held o' hq hfound => exact Or.inl ho
  | notify context actor held hq hpc hsame => exact Or.inl ((fields_eq hsame).1 ▸ ho)

theorem inTable_congr (h : s'.sessions = s.sessions) : s'.InTable o ↔ s.InTable o := by
  rw [InTable, h]
  rfl

/-- A step of the thread `t` puts a session into the table only if the thread has accepted it. -/
theorem Adds.inTable (h : Adds s t s') (ho : s'.InTable o) :
    s.InTable o ∨ ((s.pc t).accepts = some o ∧ (s'.pc t).accepts = none) := by
  cases h with
  | quiet p hpc hsame =>
    exact Or.inl ((inTable_congr (fields_eq hsame).2.1).mp ho)
  | accept hq hpc hsame =>
    exact Or.inl ((inTable_congr (fields_eq hsame).2.1).mp ho)
  | emplace o' hq hfree hpc hsame =>
    obtain ⟨context, ho⟩ := ho
    rw [(fields_eq hsame).2.1] at ho
    by_cases hcontext : context = contextOf o'
    · rw [hcontext, Function.update_self] at ho
      refine Or.inr ⟨by rw [hq, ← Option.some.inj ho]; rfl, ?_⟩
      rw [hpc, Function.update_self]
      rfl
    · rw [Function.update_of_ne hcontext] at ho
      exact Or.inl ⟨context, ho⟩
  | dispatch o' value messageType body hq => exact Or.inl ho
  | erase context held o' hq hfound =>
    obtain ⟨context', ho⟩ := ho
    change Function.update s.sessions context none context' = some o at ho
    by_cases hcontext : context' = context
    · rw [hcontext, Function.update_self] at ho
      cases ho
    · rw [Function.update_of_ne hcontext] at ho
      exact Or.inl ⟨context', ho⟩
  | notify context actor held hq hpc hsame =>
    exact Or.inl ((inTable_congr (fields_eq hsame).2.1).mp ho)

/-- A step that erases nothing adds what it pushes. -/
theorem events_of_none {l : List (String × ActorMessage)}
    (hnone : ∀ context held, s.pc t = .cleanupLocked context held → s.sessions context = none)
    (hpushed : s'.pushed = s.pushed ++ l) :
    s.events t s' = l.map fun push => .pushed t push.1 push.2 := by
  have herasures : s.erasures t = [] := by
    unfold erasures
    split
    · rename_i context held hq
      rw [hnone context held hq]
    · rfl
  rw [events, herasures, hpushed, List.drop_left, List.nil_append]

theorem events_erased {context : UInt32} {held : Bool} (hq : s.pc t = .cleanupLocked context held)
    (hfound : s.sessions context = some o) :
    s.events t (s.erased t context o held) = [.erased t o (s.associatedActor o)] := by
  have herasures : s.erasures t = [.erased t o (s.associatedActor o)] := by
    unfold erasures
    rw [hq]
    dsimp only
    rw [hfound]
  rw [events, herasures, show (s.erased t context o held).pushed = s.pushed from rfl,
    List.drop_length, List.map_nil, List.append_nil]

/-- What the step of the thread `t` adds: nothing, a message of `PostReceive`, an erased session or a
notice. -/
theorem Adds.events (h : Adds s t s') :
    (s.events t s' = [] ∧ (∀ o, s.InTable o → s'.InTable o) ∧
      ∃ p, s'.pc = Function.update s.pc t p ∧ (s.pc t).notifies = none ∧ p.notifies = none) ∨
    (∃ o messageType body, (s.pc t).receives = some o ∧ s'.sessions = s.sessions ∧ s'.pc = s.pc ∧
      s.events t s' =
        [.pushed t (s.associatedActor o) (.cts (contextOf o) messageType body)]) ∨
    (∃ context held o, s.pc t = .cleanupLocked context held ∧ s.sessions context = some o ∧
      s' = s.erased t context o held ∧ s.events t s' = [.erased t o (s.associatedActor o)]) ∨
    ∃ context actor held, s.pc t = .cleanupErased context (some actor) held ∧
      s'.pc = Function.update s.pc t .idle ∧ s'.sessions = s.sessions ∧
      s.events t s' = [.pushed t actor (.sessionDisconnected context)] := by
  cases h with
  | quiet p hpc hsame hnotifies haccepts hreceives hnone =>
    obtain ⟨-, hsessions, hpushed⟩ := fields_eq hsame
    refine Or.inl ⟨?_, fun o => (inTable_congr hsessions).mpr, p, hpc, hnotifies⟩
    exact events_of_none (l := []) hnone (by rw [hpushed, List.append_nil])
  | accept hq hpc hsame =>
    obtain ⟨-, hsessions, hpushed⟩ := fields_eq hsame
    refine Or.inl ⟨?_, fun o => (inTable_congr hsessions).mpr, _, hpc, by rw [hq]; rfl, rfl⟩
    refine events_of_none (l := []) ?_ (by rw [hpushed, List.append_nil])
    rw [hq]
    exact nofun
  | emplace o hq hfree hpc hsame =>
    obtain ⟨-, hsessions, hpushed⟩ := fields_eq hsame
    refine Or.inl ⟨?_, fun o' ho' => ?_, _, hpc, by rw [hq]; rfl, rfl⟩
    · refine events_of_none (l := []) ?_ (by rw [hpushed, List.append_nil])
      rw [hq]
      exact nofun
    · obtain ⟨context, ho'⟩ := ho'
      refine ⟨context, ?_⟩
      rw [hsessions, Function.update_of_ne]
      · exact ho'
      · rintro rfl
        cases hfree.symm.trans ho'
  | dispatch o value messageType body hq =>
    refine Or.inr (Or.inl ⟨o, messageType, body, by rw [hq]; rfl, rfl, rfl, ?_⟩)
    refine events_of_none
      (l := [(s.associatedActor o, .cts (contextOf o) messageType body)]) ?_ rfl
    rw [hq]
    exact nofun
  | erase context held o hq hfound =>
    exact Or.inr (Or.inr (Or.inl ⟨context, held, o, hq, hfound, rfl, events_erased hq hfound⟩))
  | notify context actor held hq hpc hsame =>
    obtain ⟨-, hsessions, hpushed⟩ := fields_eq hsame
    refine Or.inr (Or.inr (Or.inr ⟨context, actor, held, hq, hpc, hsessions, ?_⟩))
    refine events_of_none (l := [_]) ?_ hpushed
    rw [hq]
    exact nofun

theorem receives_of_update {u : Nat} (hpc : s'.pc = Function.update s.pc t p)
    (hp : ∀ o, p.receives = some o → (s.pc t).receives = some o ∨ ∃ n, s.pc t = .postReceive o n)
    (h : (s'.pc u).receives = some o) :
    (s.pc u).receives = some o ∨ ∃ n, s.pc t = .postReceive o n :=
  eq_some_of_update hpc (hp o) h

theorem Adds.receives {u : Nat} (h : Adds s t s') (ho : (s'.pc u).receives = some o) :
    (s.pc u).receives = some o ∨ ∃ n, s.pc t = .postReceive o n := by
  cases h with
  | quiet p hpc hsame hnotifies haccepts hreceives => exact receives_of_update hpc hreceives ho
  | accept hq hpc hsame => exact receives_of_update hpc nofun ho
  | emplace o' hq hfree hpc hsame => exact receives_of_update hpc nofun ho
  | dispatch o' value messageType body hq => exact Or.inl ho
  | erase context held o' hq hfound =>
    have hpc : (s.erased t context o' held).pc = Function.update s.pc t _ := rfl
    exact receives_of_update hpc nofun ho
  | notify context actor held hq hpc hsame => exact receives_of_update hpc nofun ho

/-- What links the sessions with the history: a session is made, then in the table and then erased, and
`PostReceive` works on sessions in the table. -/
structure Accounted (r : Recorded) : Prop where
  accepts : ∀ t o, (r.server.pc t).accepts = some o →
    o < r.server.created ∧ ¬ r.server.InTable o ∧ (∀ u actor, .erased u o actor ∉ r.history) ∧
      ∀ u, (r.server.pc u).accepts = some o → u = t
  table : ∀ o, r.server.InTable o → o < r.server.created
  erased : ∀ t o actor, .erased t o actor ∈ r.history →
    o < r.server.created ∧ ¬ r.server.InTable o
  receives : ∀ t o, (r.server.pc t).receives = some o → r.server.InTable o
  all : ∀ o, o < r.server.created → r.server.InTable o ∨
    (∃ t, (r.server.pc t).accepts = some o) ∨ ∃ t actor, .erased t o actor ∈ r.history

/-- The event of an erased session is of a session that leaves the table in this step. -/
theorem Adds.of_erased {u : Nat} {actor : String} (hinv : Inv s) (h : Adds s t s')
    (he : .erased u o actor ∈ s.events t s') : s.InTable o ∧ ¬ s'.InTable o := by
  rcases h.events with ⟨hnil, -⟩ | ⟨o', messageType, body, -, -, -, hsingle⟩ |
    ⟨context, held, o', hq, hfound, rfl, hsingle⟩ | ⟨context, actor', held, -, -, -, hsingle⟩
  · rw [hnil] at he
    cases he
  · rw [hsingle] at he
    cases List.mem_singleton.mp he
  · rw [hsingle] at he
    cases List.mem_singleton.mp he
    exact ⟨⟨context, hfound⟩, hinv.not_inTable_erased hfound⟩
  · rw [hsingle] at he
    cases List.mem_singleton.mp he

/-- A session that leaves the table is erased by the thread. -/
theorem Adds.inTable_or_erased (h : Adds s t s') (ho : s.InTable o) :
    s'.InTable o ∨ .erased t o (s.associatedActor o) ∈ s.events t s' := by
  rcases h.events with ⟨-, htable, -⟩ | ⟨o', messageType, body, -, hsessions, -⟩ |
    ⟨context, held, o', hq, hfound, rfl, hsingle⟩ | ⟨context, actor', held, -, -, hsessions, -⟩
  · exact Or.inl (htable o ho)
  · exact Or.inl ((inTable_congr hsessions).mpr ho)
  · by_cases heq : o = o'
    · rw [hsingle, heq]
      exact Or.inr (List.mem_singleton_self _)
    · exact Or.inl (inTable_erased hfound heq ho)
  · exact Or.inl ((inTable_congr hsessions).mpr ho)

/-- While the table is erased from, `PostReceive` does not hold it. -/
theorem Inv.receives_eq_none {context : UInt32} {held : Bool} (h : Inv s)
    (hq : s.pc t = .cleanupLocked context held) (u : Nat) : (s.pc u).receives = none := by
  cases hu : (s.pc u).receives with
  | none => rfl
  | some o =>
    have hzero := h.locks.shared_eq_zero (i := t) (by rw [hq]; rfl) u
    have hpos := Pc.shared_of_receives hu
    omega

theorem Adds.accounted {history : List Event} (hinv : Inv s) (h : Adds s t s')
    (hfound : ∀ o n, s.pc t = .postReceive o n → s.InTable o) (hr : Accounted ⟨s, history⟩) :
    Accounted ⟨s', history ++ s.events t s'⟩ where
  accepts u o hu := by
    rcases h.accepts hu with hold | ⟨rfl, rfl, hcreated⟩
    · obtain ⟨hlt, htable, herased, honce⟩ := hr.accepts u o hold
      refine ⟨Nat.lt_of_lt_of_le hlt h.created_le, fun htable' => ?_, fun v actor he => ?_,
        fun v hv => ?_⟩
      · rcases h.inTable htable' with htable' | ⟨ht, hnone⟩
        · exact htable htable'
        · rw [← honce t ht] at hu
          cases hnone.symm.trans hu
      · rcases List.mem_append.mp he with he | he
        · exact herased v actor he
        · exact htable (h.of_erased hinv he).1
      · rcases h.accepts hv with hv | ⟨ho, -⟩
        · exact honce v hv
        · exact absurd hlt (ho ▸ Nat.lt_irrefl _)
    · refine ⟨?_, fun htable => ?_, fun v actor he => ?_, fun v hv => ?_⟩
      · rw [hcreated]
        exact Nat.lt_succ_self _
      · rcases h.inTable htable with htable | ⟨ht, -⟩
        · exact Nat.lt_irrefl _ (hr.table _ htable)
        · exact Nat.lt_irrefl _ (hr.accepts _ _ ht).1
      · rcases List.mem_append.mp he with he | he
        · exact Nat.lt_irrefl _ (hr.erased _ _ _ he).1
        · exact Nat.lt_irrefl _ (hr.table _ (h.of_erased hinv he).1)
      · rcases h.accepts hv with hv | ⟨-, hv, -⟩
        · exact absurd (hr.accepts _ _ hv).1 (Nat.lt_irrefl _)
        · exact hv
  table o ho := by
    refine Nat.lt_of_lt_of_le ?_ h.created_le
    rcases h.inTable ho with ho | ⟨ht, -⟩
    · exact hr.table o ho
    · exact (hr.accepts t o ht).1
  erased u o actor he := by
    rcases List.mem_append.mp he with hold | hnew
    · obtain ⟨hlt, hgone⟩ := hr.erased u o actor hold
      refine ⟨Nat.lt_of_lt_of_le hlt h.created_le, fun htable => ?_⟩
      rcases h.inTable htable with htable | ⟨ht, -⟩
      · exact hgone htable
      · exact (hr.accepts t o ht).2.2.1 u actor hold
    · obtain ⟨htable, hgone⟩ := h.of_erased hinv hnew
      exact ⟨Nat.lt_of_lt_of_le (hr.table o htable) h.created_le, hgone⟩
  receives u o hu := by
    have htable : s.InTable o := by
      rcases h.receives hu with hu | ⟨n, hq⟩
      · exact hr.receives u o hu
      · exact hfound o n hq
    rcases h.events with ⟨-, hkeep, -⟩ | ⟨o', messageType, body, -, hsessions, -⟩ |
      ⟨context, held, o', hq, hfound', rfl, -⟩ | ⟨context, actor', held, -, -, hsessions, -⟩
    · exact hkeep o htable
    · exact (inTable_congr hsessions).mpr htable
    · rcases h.receives hu with hu | ⟨n, hq'⟩
      · cases (hinv.receives_eq_none hq u).symm.trans hu
      · cases hq.symm.trans hq'
    · exact (inTable_congr hsessions).mpr htable
  all o ho := by
    rcases h.lt_or_accepts ho with ho | ho
    · rcases hr.all o ho with htable | ⟨u, hu⟩ | ⟨u, actor, he⟩
      · rcases h.inTable_or_erased htable with htable | he
        · exact Or.inl htable
        · exact Or.inr (Or.inr ⟨t, _, List.mem_append_right _ he⟩)
      · rcases h.accepts_or_inTable hu with hu | htable
        · exact Or.inr (Or.inl ⟨u, hu⟩)
        · exact Or.inl htable
      · exact Or.inr (Or.inr ⟨u, actor, List.mem_append_left _ he⟩)
    · exact Or.inr (Or.inl ⟨t, ho⟩)

/-! ## Notices -/

/-- The end of a context's history: nothing while its session is not erased; then the erased session
with its associated actor, whose notice the thread that has erased it has still to push; then the
notice, which this thread has pushed to this actor. -/
inductive Notice (s : NetworkServer) (context : UInt32) : List Event → Prop
  | none (h : ∀ u, (s.pc u).notifies ≠ some context) : Notice s context []
  | due (t o : Nat) (actor : String) (held : Bool) (ho : contextOf o = context)
      (hpc : s.pc t = .cleanupErased context (some actor) held)
      (h : ∀ u, (s.pc u).notifies = some context → u = t) : Notice s context [.erased t o actor]
  | pushed (t o : Nat) (actor : String) (ho : contextOf o = context)
      (h : ∀ u, (s.pc u).notifies ≠ some context) :
      Notice s context [.erased t o actor, .pushed t actor (.sessionDisconnected context)]

/-- The history of a context: messages of `PostReceive` and the notice after them. -/
def Noticed (r : Recorded) (context : UInt32) : Prop :=
  ∃ dispatched notice, r.history.filter (·.context = context) = dispatched ++ notice ∧
    (∀ e ∈ dispatched, e.isCts = true) ∧ Notice r.server context notice

/-- A step of another thread, or one that is not about the notice of this context. -/
theorem Notice.move {context : UInt32} {l : List Event} (h : Notice s context l)
    (hpc : s'.pc = Function.update s.pc t p) (hq : (s.pc t).notifies ≠ some context)
    (hp : p.notifies ≠ some context) : Notice s' context l := by
  have hother : ∀ u, (s'.pc u).notifies = some context → (s.pc u).notifies = some context := by
    intro u hu
    rw [hpc] at hu
    by_cases hut : u = t
    · rw [hut, Function.update_self] at hu
      exact absurd hu hp
    · rwa [Function.update_of_ne hut] at hu
  cases h with
  | none h => exact .none fun u hu => h u (hother u hu)
  | due u o actor held ho hu h =>
    refine .due u o actor held ho ?_ fun v hv => h v (hother v hv)
    rw [hpc, Function.update_of_ne]
    · exact hu
    · rintro rfl
      exact hq (by rw [hu]; rfl)
  | pushed u o actor ho h => exact .pushed u o actor ho fun v hv => h v (hother v hv)

theorem contextOf_inj {o' n : Nat} (hn : n ≤ 2 ^ 32) (ho : o < n) (ho' : o' < n)
    (h : contextOf o = contextOf o') : o = o' := by
  have hmod := congrArg UInt32.toNat h
  rw [contextOf, contextOf, UInt32.toNat_ofNat', UInt32.toNat_ofNat'] at hmod
  omega

/-- The context of a session that is in the table has no notice. -/
theorem Accounted.notice_eq_nil {r : Recorded} {notice : List Event} (hr : Accounted r)
    (hcount : r.server.created ≤ 2 ^ 32) (htable : r.server.InTable o)
    (hmem : ∀ e ∈ notice, e ∈ r.history) (h : Notice r.server (contextOf o) notice) :
    notice = [] := by
  have hgone : ∀ t o' actor, contextOf o' = contextOf o → .erased t o' actor ∉ r.history := by
    intro t o' actor ho' he
    obtain ⟨hlt, hgone⟩ := hr.erased t o' actor he
    rw [contextOf_inj hcount hlt (hr.table o htable) ho'] at hgone
    exact hgone htable
  cases h with
  | none h => rfl
  | due t o' actor held ho' hpc h =>
    exact absurd (hmem _ (List.mem_cons_self ..)) (hgone t o' actor ho')
  | pushed t o' actor ho' h =>
    exact absurd (hmem _ (List.mem_cons_self ..)) (hgone t o' actor ho')

theorem filter_snoc_self {history : List Event} {e : Event} {context : UInt32}
    (he : e.context = context) :
    (history ++ [e]).filter (·.context = context) = history.filter (·.context = context) ++ [e] := by
  simp [List.filter_append, he]

theorem filter_snoc_of_ne {history : List Event} {e : Event} {context : UInt32}
    (he : e.context ≠ context) :
    (history ++ [e]).filter (·.context = context) = history.filter (·.context = context) := by
  simp [List.filter_append, he]

/-- A step that is not about the context. -/
theorem Noticed.skip {history : List Event} {e : Event} {context : UInt32}
    (hn : Noticed ⟨s, history⟩ context) (hpc : s'.pc = Function.update s.pc t p)
    (hq : (s.pc t).notifies ≠ some context) (hp : p.notifies ≠ some context)
    (he : e.context ≠ context) : Noticed ⟨s', history ++ [e]⟩ context := by
  obtain ⟨dispatched, notice, hfilter, hdispatched, hnotice⟩ := hn
  exact ⟨dispatched, notice, (filter_snoc_of_ne he).trans hfilter, hdispatched,
    hnotice.move hpc hq hp⟩

/-- `PostReceive` dispatches a message; it holds the table, so the session is not erased. -/
theorem Noticed.dispatch {history : List Event} {messageType : UInt16} {body : Bytes} {actor : String}
    (hr : Accounted ⟨s, history⟩) (hcount : s.created ≤ 2 ^ 32) (htable : s.InTable o)
    (hpc : s'.pc = s.pc) (hn : Noticed ⟨s, history⟩ (contextOf o)) :
    Noticed ⟨s', history ++ [.pushed t actor (.cts (contextOf o) messageType body)]⟩
      (contextOf o) := by
  obtain ⟨dispatched, notice, hfilter, hdispatched, hnotice⟩ := hn
  have hmem : ∀ e ∈ notice, e ∈ history := fun e he =>
    List.mem_of_mem_filter (hfilter ▸ List.mem_append_right _ he)
  have hnil := hr.notice_eq_nil hcount htable hmem hnotice
  rw [hnil, List.append_nil] at hfilter
  rw [hnil] at hnotice
  refine ⟨dispatched ++ [.pushed t actor (.cts (contextOf o) messageType body)], [], ?_, ?_, ?_⟩
  · rw [List.append_nil, ← hfilter]
    exact filter_snoc_self rfl
  · intro e he
    rcases List.mem_append.mp he with he | he
    · exact hdispatched e he
    · rw [List.mem_singleton.mp he]
      rfl
  · cases hnotice with
    | none hnone => exact .none fun u => by rw [hpc]; exact hnone u

/-- The session is erased. -/
theorem Noticed.erase {history : List Event} {held : Bool} (hr : Accounted ⟨s, history⟩)
    (hcount : s.created ≤ 2 ^ 32) (hfound : s.sessions (contextOf o) = some o)
    (hn : Noticed ⟨s, history⟩ (contextOf o)) :
    Noticed ⟨s.erased t (contextOf o) o held, history ++ [.erased t o (s.associatedActor o)]⟩
      (contextOf o) := by
  obtain ⟨dispatched, notice, hfilter, hdispatched, hnotice⟩ := hn
  have hmem : ∀ e ∈ notice, e ∈ history := fun e he =>
    List.mem_of_mem_filter (hfilter ▸ List.mem_append_right _ he)
  have hnil := hr.notice_eq_nil hcount ⟨_, hfound⟩ hmem hnotice
  rw [hnil, List.append_nil] at hfilter
  rw [hnil] at hnotice
  refine ⟨dispatched, [.erased t o (s.associatedActor o)], ?_, hdispatched, ?_⟩
  · rw [← hfilter]
    exact filter_snoc_self rfl
  · cases hnotice with
    | none hnone =>
      refine .due t o _ held rfl (Function.update_self ..) fun u hu => ?_
      by_contra hut
      refine hnone u ?_
      change (Function.update s.pc t _ u).notifies = _ at hu
      rwa [Function.update_of_ne hut] at hu

/-- The thread that has erased the session pushes the notice. -/
theorem Noticed.notify {history : List Event} {context : UInt32} {actor : String} {held : Bool}
    (hq : s.pc t = .cleanupErased context (some actor) held)
    (hpc : s'.pc = Function.update s.pc t .idle) (hn : Noticed ⟨s, history⟩ context) :
    Noticed ⟨s', history ++ [.pushed t actor (.sessionDisconnected context)]⟩ context := by
  obtain ⟨dispatched, notice, hfilter, hdispatched, hnotice⟩ := hn
  have hnotifies : (s.pc t).notifies = some context := by
    rw [hq]
    rfl
  cases hnotice with
  | none hnone => exact absurd hnotifies (hnone t)
  | pushed u o actor' ho hnone => exact absurd hnotifies (hnone t)
  | due u o actor' held' ho hu honce =>
    obtain rfl := honce t hnotifies
    cases hq.symm.trans hu
    refine ⟨dispatched, [.erased t o actor, .pushed t actor (.sessionDisconnected context)], ?_,
      hdispatched, .pushed t o actor ho fun v hv => ?_⟩
    · refine (filter_snoc_self (show Event.context (.pushed t actor (.sessionDisconnected context)) =
        context from rfl)).trans ?_
      rw [show history.filter (·.context = context) = _ from hfilter, List.append_assoc]
      rfl
    · rw [hpc] at hv
      by_cases hvt : v = t
      · rw [hvt, Function.update_self] at hv
        cases hv
      · rw [Function.update_of_ne hvt] at hv
        exact hvt (honce v hv)

/-- Every step keeps the notices. -/
theorem Adds.noticed {history : List Event} {context : UInt32} (hinv : Inv s) (h : Adds s t s')
    (hr : Accounted ⟨s, history⟩) (hcount : s.created ≤ 2 ^ 32) (hn : Noticed ⟨s, history⟩ context) :
    Noticed ⟨s', history ++ s.events t s'⟩ context := by
  rcases h.events with ⟨hnil, -, p, hpc, hq, hp⟩ |
    ⟨o, messageType, body, hreceives, -, hpc, hsingle⟩ |
    ⟨context', held, o, hq, hfound, rfl, hsingle⟩ | ⟨context', actor, held, hq, hpc, -, hsingle⟩
  · obtain ⟨dispatched, notice, hfilter, hdispatched, hnotice⟩ := hn
    rw [hnil, List.append_nil]
    refine ⟨dispatched, notice, hfilter, hdispatched, hnotice.move hpc ?_ ?_⟩
    · rw [hq]
      exact nofun
    · rw [hp]
      exact nofun
  · rw [hsingle]
    by_cases hcontext : contextOf o = context
    · subst hcontext
      exact hn.dispatch hr hcount (hr.receives t o hreceives) hpc
    · have hnone : (s.pc t).notifies ≠ some context := by
        intro hnotifies
        cases hpc' : s.pc t <;> simp_all [Pc.receives, Pc.notifies]
      exact hn.skip (hpc.trans (Function.update_eq_self t s.pc).symm) hnone hnone hcontext
  · rw [hsingle]
    have hctx : contextOf o = context' := hinv.table context' o hfound
    subst hctx
    by_cases hcontext : contextOf o = context
    · subst hcontext
      exact hn.erase hr hcount hfound
    · refine hn.skip rfl ?_ ?_ hcontext
      · rw [hq]
        exact nofun
      · exact fun ho => hcontext (Option.some.inj ho)
  · rw [hsingle]
    by_cases hcontext : context' = context
    · subst hcontext
      exact hn.notify hq hpc
    · refine hn.skip hpc ?_ nofun hcontext
      rw [hq]
      exact fun ho => hcontext (Option.some.inj ho)

/-! ## All runs -/

theorem accounted_init (actor : String) : Accounted ⟨init actor, []⟩ where
  accepts t o h := by cases h
  table o h := by
    obtain ⟨context, h⟩ := h
    cases h
  erased t o actor h := by cases h
  receives t o h := by cases h
  all o h := absurd h (Nat.not_lt_zero o)

theorem Adds.isPrefix (h : Adds s t s') : s.pushed <+: s'.pushed := by
  cases h with
  | quiet p hpc hsame => exact (fields_eq hsame).2.2 ▸ List.prefix_refl _
  | accept hq hpc hsame => exact (fields_eq hsame).2.2 ▸ List.prefix_refl _
  | emplace o hq hfree hpc hsame =>
    exact (fields_eq hsame).2.2 ▸ List.prefix_refl _
  | dispatch o value messageType body hq => exact List.prefix_append _ _
  | erase context held o hq hfound => exact List.prefix_refl _
  | notify context actor held hq hpc hsame =>
    exact (fields_eq hsame).2.2 ▸ List.prefix_append _ _

/-- The history has the messages that are pushed, in order. -/
theorem Adds.push (h : Adds s t s') :
    s'.pushed = s.pushed ++ (s.events t s').filterMap Event.push := by
  have herasures : (s.erasures t).filterMap Event.push = [] := by
    unfold erasures
    split
    · split <;> rfl
    · rfl
  have hdrop := List.prefix_iff_eq_append.mp h.isPrefix
  rw [NetworkServer.events, List.filterMap_append, herasures, List.nil_append, List.filterMap_map]
  refine hdrop.symm.trans (congrArg _ ?_)
  exact List.filterMap_some.symm

/-- What holds in every state that a run of a server with its history reaches. -/
structure RecordInv (r : Recorded) : Prop where
  inv : Inv r.server
  accounted : Accounted r
  push : r.history.filterMap Event.push = r.server.pushed
  noticed : r.server.created ≤ 2 ^ 32 → ∀ context, Noticed r context

theorem recordInv_step {r r' : Recorded} (h : RecordInv r) (hok : r.server.ReceivesFound a)
    (hstep : recordStep r a = some r') : RecordInv r' := by
  obtain ⟨s', hs', rfl⟩ := Option.map_eq_some_iff.mp hstep
  have hadds := adds_of_step hs'
  have hfound : ∀ o n, r.server.pc a.thread = .postReceive o n → r.server.InTable o := by
    intro o n hq
    cases a with
    | start t handler =>
      obtain ⟨hidle, -⟩ := moves_of_startStep hs'
      cases hq.symm.trans hidle
    | run t answers =>
      rw [ReceivesFound, show r.server.pc t = _ from hq] at hok
      exact ⟨_, hok⟩
  refine ⟨inv_step h.inv hs', hadds.accounted h.inv hfound h.accounted, ?_, fun hcount context => ?_⟩
  · rw [List.filterMap_append, h.push]
    exact hadds.push.symm
  · have hcount' := Nat.le_trans hadds.created_le hcount
    exact hadds.noticed h.inv h.accounted hcount' (h.noticed hcount' context)

theorem recordInv_init (actor : String) : RecordInv ⟨init actor, []⟩ := by
  refine ⟨inv_init actor, accounted_init actor, rfl, fun _ context => ?_⟩
  exact ⟨[], [], rfl, nofun, .none fun u => nofun⟩

/-- **Each disconnect is noticed once and last.** With at most 2³² connections, and if `PostReceive`
locks the table for no erased session, the history has, in each state and for every context, some
messages that `PostReceive` has pushed; then, once the session of the context is erased, this event
with the actor associated at that moment; and then exactly one notice, which the thread that has
erased the session pushes to that actor. Nothing of the context follows. The history has the messages
that are pushed, and each session that is not with `PostAccept` and not in the table as erased. -/
theorem disconnected_once_and_last {actor : String} {as : List Action} {r : Recorded}
    (hrun : run recordStep ⟨init actor, []⟩ as = some r) (hcount : r.server.created ≤ 2 ^ 32)
    (hfound : Meets recordStep (fun r => r.server.ReceivesFound) ⟨init actor, []⟩ as) :
    (∀ context, Noticed r context) ∧ r.history.filterMap Event.push = r.server.pushed ∧
      ∀ o, o < r.server.created → r.server.InTable o ∨
        (∃ t, (r.server.pc t).accepts = some o) ∨ ∃ t actor, .erased t o actor ∈ r.history := by
  have h := run_invariant (fun _ _ _ h hok hstep => recordInv_step h hok hstep)
    (recordInv_init actor) hfound hrun
  exact ⟨h.noticed hcount, h.push, h.accounted.all⟩

instance (s : NetworkServer) (a : Action) : Decidable (s.ReceivesFound a) := by
  unfold ReceivesFound
  split
  · split <;> infer_instance
  · infer_instance

theorem disconnected_once_and_last_disconnect : ∃ r,
    run recordStep ⟨init "auth", []⟩ disconnectRun = some r ∧
      r.history = [.erased 1 0 "auth", .pushed 1 "auth" (.sessionDisconnected 0)] ∧
      Noticed r 0 := by
  refine ⟨_, rfl, rfl, (disconnected_once_and_last
    (show run recordStep ⟨init "auth", []⟩ disconnectRun = _ from rfl) ?_ ?_).1 0⟩
  · decide
  · decide

end NetworkServer

end RatkiniaServer
