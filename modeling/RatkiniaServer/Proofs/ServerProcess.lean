import RatkiniaServer.ServerProcess
import RatkiniaServer.Proofs.ActorSystem
import RatkiniaServer.Proofs.DisconnectNotices

/-!
# What the actors hear of a session

The messages pushed to an actor are those that the session table pushes to its name, in that order, and
the rounds deliver them in that order. So an actor hears of a session its requests and then, at most
once, that it is disconnected; and one actor does hear that it is.
-/

namespace RatkiniaServer

open Transition

/-! ## Pushes -/

namespace NetworkServer

variable {s s' : NetworkServer} {a : Action} {t : Nat} {name : String} {message : ActorMessage}
  {delivered : Bool}

/-- Only the loop over `PeekReceivedMessage` and the end of `SessionCleanupRoutine` push. -/
theorem Adds.pushed_eq (h : Adds s t s') (hdraining : ∀ o value, s.pc t ≠ .draining o value)
    (herased : ∀ context name held, s.pc t ≠ .cleanupErased context (some name) held) :
    s'.pushed = s.pushed := by
  cases h with
  | quiet p hpc hsame => exact (fields_eq hsame).2.2
  | accept hq hpc hsame => exact (fields_eq hsame).2.2
  | emplace o hq hfree hpc hsame => exact (fields_eq hsame).2.2
  | dispatch o value messageType body hq => exact absurd hq (hdraining o value)
  | erase context held o hq hfound => rfl
  | notify context actor held hq => exact absurd hq (herased context actor held)

/-- A step that does not call `TryPushMessageTo` pushes nothing. -/
theorem pushed_of_pushRequest_none (h : s.pushRequest a = none) (hstep : s.step a = some s') :
    s'.pushed = s.pushed := by
  cases a with
  | start t handler =>
    obtain ⟨hidle, -⟩ := begins_of_startStep hstep
    exact (adds_of_startStep hstep).pushed_eq (by simp [hidle]) (by simp [hidle])
  | run t answers =>
    cases hpc : s.pc t with
    | draining o value =>
      have hmessage : answers.message = none := by simpa [pushRequest, hpc] using h
      simp only [step, runStep, hpc, hmessage, Option.some.injEq] at hstep
      subst hstep
      rfl
    | cleanupErased context actor held =>
      have hactor : actor = none := by simpa [pushRequest, hpc] using h
      subst hactor
      exact (adds_of_runStep hstep).pushed_eq (by simp [hpc]) (by simp [hpc])
    | _ => exact (adds_of_runStep hstep).pushed_eq (by simp [hpc]) (by simp [hpc])

/-- A step that calls `TryPushMessageTo` goes on only if the message is pushed. -/
theorem pushed_of_pushRequest_some (h : s.pushRequest a = some (name, message))
    (hstep : s.step (a.pushing delivered) = some s') :
    delivered = true ∧ s'.pushed = s.pushed ++ [(name, message)] := by
  cases a with
  | start t handler => cases h
  | run t answers =>
    cases hpc : s.pc t with
    | draining o value =>
      simp only [pushRequest, hpc, Option.map_eq_some_iff, Prod.mk.injEq] at h
      obtain ⟨⟨messageType, body⟩, hmessage, rfl, rfl⟩ := h
      simp only [Action.pushing, step, runStep, hpc, hmessage] at hstep
      split_ifs at hstep with hdelivered
      obtain rfl := Option.some.inj hstep
      exact ⟨hdelivered, rfl⟩
    | cleanupErased context actor held =>
      simp only [pushRequest, hpc, Option.map_eq_some_iff, Prod.mk.injEq] at h
      obtain ⟨_, rfl, rfl, rfl⟩ := h
      simp only [Action.pushing, step, runStep, hpc] at hstep
      split_ifs at hstep with hdelivered
      obtain rfl := Option.some.inj hstep
      exact ⟨hdelivered, rfl⟩
    | _ => simp [pushRequest, hpc] at h

theorem receivesFound_pushing (h : s.ReceivesFound a) : s.ReceivesFound (a.pushing delivered) := by
  cases a with
  | start t handler => trivial
  | run t answers => exact h

/-! ## The messages of one context -/

theorem context_of_push {e : Event} {push : String × ActorMessage} (h : e.push = some push) :
    push.2.context = e.context := by
  cases e with
  | erased t o actor => cases h
  | pushed t actor message =>
    obtain rfl := Option.some.inj h
    rfl

/-- The pushes about a context are those of its history. -/
theorem filter_filterMap_push (history : List Event) (context : UInt32) :
    (history.filterMap Event.push).filter (·.2.context = context) =
      (history.filter (·.context = context)).filterMap Event.push := by
  induction history with
  | nil => rfl
  | cons e history ih =>
    cases hpush : e.push with
    | none =>
      rw [List.filterMap_cons_none hpush, ih, List.filter_cons]
      split_ifs
      · rw [List.filterMap_cons_none hpush]
      · rfl
    | some push =>
      rw [List.filterMap_cons_some hpush, List.filter_cons, List.filter_cons, context_of_push hpush, ih]
      split_ifs
      · rw [List.filterMap_cons_some hpush]
      · rfl

theorem Notice.push {context : UInt32} {notice : List Event} (h : Notice s context notice) :
    notice.filterMap Event.push = [] ∨
      ∃ name, notice.filterMap Event.push = [(name, .sessionDisconnected context)] := by
  cases h with
  | none h => exact Or.inl rfl
  | due t o name held ho hpc h => exact Or.inl rfl
  | pushed t o name ho h => exact Or.inr ⟨name, rfl⟩

/-- The pushes about a context are requests and, at most, one notice after them. -/
theorem RecordInv.requests_then_notice {history : List Event} (h : RecordInv ⟨s, history⟩)
    (hcount : s.created ≤ 2 ^ 32) (context : UInt32) :
    ∃ requests notice, s.pushed.filter (·.2.context = context) = requests ++ notice ∧
      (∀ push ∈ requests, push.2 ≠ .sessionDisconnected context) ∧
      (notice = [] ∨ ∃ name, notice = [(name, .sessionDisconnected context)]) := by
  obtain ⟨dispatched, notice, hfilter, hdispatched, hnotice⟩ := h.noticed hcount context
  refine ⟨dispatched.filterMap Event.push, notice.filterMap Event.push, ?_, ?_, hnotice.push⟩
  · rw [← List.filterMap_append, ← hfilter, ← filter_filterMap_push]
    exact congrArg _ h.push.symm
  · rintro push hmem hnoticed
    obtain ⟨e, he, hpush⟩ := List.mem_filterMap.mp hmem
    have hcts := hdispatched e he
    cases e with
    | erased t o actor => cases hpush
    | pushed t actor message =>
      obtain rfl := Option.some.inj hpush
      simp only at hnoticed
      rw [hnoticed] at hcts
      cases hcts

/-- A session that has come and gone, and of which no thread has a notice left to push, has been
noticed. -/
theorem RecordInv.exists_notice {history : List Event} {o : Nat} (h : RecordInv ⟨s, history⟩)
    (hcount : s.created ≤ 2 ^ 32) (ho : o < s.created) (htable : ¬ s.InTable o)
    (haccepts : ∀ u, (s.pc u).accepts ≠ some o)
    (hnotifies : ∀ u, (s.pc u).notifies ≠ some (contextOf o)) :
    ∃ name, (name, .sessionDisconnected (contextOf o)) ∈ s.pushed := by
  obtain hin | ⟨u, hu⟩ | ⟨t, actor, herased⟩ := h.accounted.all o ho
  · exact absurd hin htable
  · exact absurd hu (haccepts u)
  obtain ⟨dispatched, notice, hfilter, hdispatched, hnotice⟩ := h.noticed hcount (contextOf o)
  have hmem : .erased t o actor ∈ dispatched ++ notice := by
    rw [← hfilter]
    exact List.mem_filter.mpr ⟨herased, by simp [Event.context]⟩
  obtain hmem | hmem := List.mem_append.mp hmem
  · cases hdispatched _ hmem
  have hpushed : ∀ e ∈ notice, ∀ push, e.push = some push → push ∈ s.pushed := by
    intro e he push hpush
    have hhistory : e ∈ history.filter (·.context = contextOf o) := by
      rw [hfilter]
      exact List.mem_append_right _ he
    rw [← show history.filterMap Event.push = s.pushed from h.push]
    exact List.mem_filterMap.mpr ⟨e, List.mem_of_mem_filter hhistory, hpush⟩
  cases hnotice with
  | none hnone => cases hmem
  | due u o' name held ho' hpc honce =>
    refine absurd ?_ (hnotifies u)
    show (s.pc u).notifies = _
    rw [show s.pc u = _ from hpc]
    rfl
  | pushed u o' name ho' hnone =>
    exact ⟨name, hpushed (.pushed u name (.sessionDisconnected (contextOf o))) (by simp) _ rfl⟩

/-- A step of a server with its history. -/
theorem RecordInv.step {history : List Event} (h : RecordInv ⟨s, history⟩) (hok : s.ReceivesFound a)
    (hstep : s.step a = some s') : ∃ history', RecordInv ⟨s', history'⟩ :=
  ⟨history ++ s.events a.thread s',
    recordInv_step h hok (Option.map_eq_some_iff.mpr ⟨s', hstep, rfl⟩)⟩

end NetworkServer

/-! ## The mailboxes -/

namespace ActorSystem

variable {n : Nat} {r : ActorRegistry} {name : String}

/-- The threads that run the actors push nothing. -/
theorem Inv.pushed_stepWorker {M : Type*} {WorkerThreadsCount : UInt32}
    {messageHandlers : String → UInt32 → Bool} {typeIndex : M → UInt32}
    {s s' : ActorSystem WorkerThreadsCount.toNat M} {t : Fin WorkerThreadsCount.toNat}
    (h : Inv r messageHandlers typeIndex s) (hstep : s.stepWorker r t = some s') (name : String) :
    (s'.actor name).pushed = (s.actor name).pushed := by
  obtain ⟨server, -, -, rfl⟩ | ⟨i, other, a, hpc, hi, hrun, hcases⟩ := stepWorker_cases hstep
  · rfl
  have hmail := h.mailbox_inv (Or.inl ⟨t, ⟨i, hpc, hi⟩, rfl⟩)
  have hpushed : a.pushed = (s.actor other).pushed := (DynamicActor.run_spec (b := 0) hmail hrun).1
  have hset : ((s.setActor t other a).actor name).pushed = (s.actor name).pushed := by
    rcases eq_or_ne name other with rfl | hne
    · rw [actor_setActor_self]
      exact hpushed
    · rw [actor_setActor_of_ne s t a hne]
  obtain ⟨-, rfl⟩ | ⟨-, rfl⟩ := hcases <;> exact hset

theorem pushed_tryPushMessageTo {M : Type*} (s : ActorSystem n M) (hname : name ∈ r.actors)
    (message : M) (other : String) :
    ((s.tryPushMessageTo r name (some message)).2.actor other).pushed =
      (s.actor other).pushed ++ if name = other then [message] else [] := by
  simp only [tryPushMessageTo, hname, if_true]
  split_ifs with hother
  · subst hother
    rw [Function.update_self]
    rfl
  · rw [Function.update_of_ne (Ne.symm hother), List.append_nil]

end ActorSystem

namespace ServerProcess

variable {names : List String} {initialAssociatedActor name : String} {WorkerThreadsCount : UInt32}
  {messageHandlers : String → UInt32 → Bool} {typeIndex : ActorMessage → UInt32}
  {s s' t : ServerProcess WorkerThreadsCount.toNat} {act : Action WorkerThreadsCount.toNat}
  {context : UInt32}

/-- The messages pushed to the actor of a name, of all that are pushed. -/
def inbox (name : String) (pushed : List (String × ActorMessage)) : List ActorMessage :=
  (pushed.filter (·.1 = name)).map Prod.snd

/-- What an actor has been passed about a context, in order. -/
def heard {n : Nat} (s : ServerProcess n) (name : String) (context : UInt32) : List ActorMessage :=
  ((s.actors.actor name).delivered.map Delivery.message).filter (·.context = context)

/-- `PostReceive` locks the table for a session that is in it. -/
def ReceivesFound {n : Nat} (s : ServerProcess n) : Action n → Prop
  | .network a => s.network.ReceivesFound a
  | _ => True

@[simp] theorem inbox_append (name : String) (l l' : List (String × ActorMessage)) :
    inbox name (l ++ l') = inbox name l ++ inbox name l' := by
  simp [inbox]

theorem inbox_singleton (name other : String) (message : ActorMessage) :
    inbox other [(name, message)] = if name = other then [message] else [] := by
  unfold inbox
  split_ifs with h <;> simp [h]

theorem mem_inbox {pushed : List (String × ActorMessage)} {message : ActorMessage} :
    message ∈ inbox name pushed ↔ (name, message) ∈ pushed := by
  simp [inbox]

/-! ### One step -/

/-- What a step does: one of the network threads steps, and pushes nothing or one message to an actor
there is; or one of the threads of the actors does. -/
theorem step_cases (hstep : step (.create names) WorkerThreadsCount s act = some s') :
    (∃ a, (s.ReceivesFound act → s.network.ReceivesFound a) ∧
      s.network.step a = some s'.network ∧
      ((s'.network.pushed = s.network.pushed ∧ s'.actors = s.actors) ∨
        ∃ name message, name ∈ names ∧
          s'.network.pushed = s.network.pushed ++ [(name, message)] ∧
          s'.actors = (s.actors.tryPushMessageTo (.create names) name (some message)).2)) ∨
    (s'.network = s.network ∧
      (s.actors.step (.create names) WorkerThreadsCount .main = some s'.actors ∨
        ∃ u, s.actors.step (.create names) WorkerThreadsCount (.worker u) = some s'.actors)) := by
  cases act with
  | network a =>
    left
    simp only [step, serve] at hstep
    cases hrequest : s.network.pushRequest a with
    | none =>
      simp only [hrequest] at hstep
      obtain ⟨network, hnetwork, rfl⟩ := Option.map_eq_some_iff.mp hstep
      have hpushed := NetworkServer.pushed_of_pushRequest_none hrequest hnetwork
      exact ⟨a, id, hnetwork, Or.inl ⟨hpushed, rfl⟩⟩
    | some request =>
      obtain ⟨name, message⟩ := request
      simp only [hrequest] at hstep
      obtain ⟨network, hnetwork, rfl⟩ := Option.map_eq_some_iff.mp hstep
      obtain ⟨hdelivered, hpushed⟩ := NetworkServer.pushed_of_pushRequest_some hrequest hnetwork
      have hname : name ∈ names := by
        by_contra hnone
        simp [ActorSystem.tryPushMessageTo, hnone] at hdelivered
      exact ⟨_, NetworkServer.receivesFound_pushing, hnetwork,
        Or.inr ⟨name, message, hname, hpushed, rfl⟩⟩
  | main =>
    obtain ⟨actors, hactors, rfl⟩ := Option.map_eq_some_iff.mp hstep
    exact Or.inr ⟨rfl, Or.inl hactors⟩
  | worker u =>
    obtain ⟨actors, hactors, rfl⟩ := Option.map_eq_some_iff.mp hstep
    exact Or.inr ⟨rfl, Or.inr ⟨u, hactors⟩⟩

/-- What the process does to the actors is a run of the actors on their own. -/
theorem reachable_actors_step
    (hstep : step (.create names) WorkerThreadsCount s act = some s') :
    Reachable (ActorSystem.step (.create names) WorkerThreadsCount) s.actors s'.actors := by
  obtain ⟨a, -, -, ⟨-, hactors⟩ | ⟨name, message, -, -, hactors⟩⟩ | ⟨-, hmain | ⟨u, hworker⟩⟩ :=
    step_cases hstep
  · rw [hactors]
    exact .refl _
  · exact Reachable.next (a := .tryPushMessageTo name (some message)) (.refl _)
      (congrArg some hactors.symm)
  · exact Reachable.next (.refl _) hmain
  · exact Reachable.next (.refl _) hworker

theorem reachable_actors (h : Reachable (step (.create names) WorkerThreadsCount) s t) :
    Reachable (ActorSystem.step (.create names) WorkerThreadsCount) s.actors t.actors :=
  h.map ServerProcess.actors fun _ _ _ => reachable_actors_step

theorem created_le (h : Reachable (step (.create names) WorkerThreadsCount) s t) :
    s.network.created ≤ t.network.created := by
  refine h.invariant (P := fun t => s.network.created ≤ t.network.created)
    (fun t act t' hle hstep => hle.trans ?_) (Nat.le_refl _)
  obtain ⟨a, -, hnetwork, -⟩ | ⟨hnetwork, -⟩ := step_cases hstep
  · exact (NetworkServer.adds_of_step hnetwork).created_le
  · rw [hnetwork]

/-- The invariant: the session table has its history, and each mailbox has been pushed what the table
has pushed to its name, which is that of an actor. -/
structure Inv (names : List String) (messageHandlers : String → UInt32 → Bool)
    (typeIndex : ActorMessage → UInt32) (s : ServerProcess WorkerThreadsCount.toNat) : Prop where
  recorded : ∃ history, NetworkServer.RecordInv ⟨s.network, history⟩
  actors : Reachable (ActorSystem.step (.create names) WorkerThreadsCount)
    (.init WorkerThreadsCount messageHandlers typeIndex) s.actors
  names : ∀ push ∈ s.network.pushed, push.1 ∈ names
  pushed : ∀ name, (s.actors.actor name).pushed = inbox name s.network.pushed

theorem inv_init : Inv names messageHandlers typeIndex
    (init initialAssociatedActor WorkerThreadsCount messageHandlers typeIndex) where
  recorded := ⟨[], NetworkServer.recordInv_init initialAssociatedActor⟩
  actors := .refl _
  names := nofun
  pushed _ := rfl

theorem inv_step (hworkers : 0 < WorkerThreadsCount.toNat)
    (hsize : names.length + WorkerThreadsCount.toNat ≤ 2 ^ 32) (hnames : names.Nodup)
    (h : Inv names messageHandlers typeIndex s) (hok : s.ReceivesFound act)
    (hstep : step (.create names) WorkerThreadsCount s act = some s') :
    Inv names messageHandlers typeIndex s' := by
  have hactors := h.actors.trans (reachable_actors_step hstep)
  obtain ⟨a, hfound, hnetwork, hpushes⟩ | ⟨hnetwork, hthread⟩ := step_cases hstep
  · obtain ⟨history, hrecorded⟩ := h.recorded
    have hrecorded' := hrecorded.step (hfound hok) hnetwork
    obtain ⟨hpushed, hsame⟩ | ⟨name, message, hname, hpushed, hsame⟩ := hpushes
    · refine ⟨hrecorded', hactors, hpushed ▸ h.names, fun other => ?_⟩
      rw [hpushed, hsame]
      exact h.pushed other
    · refine ⟨hrecorded', hactors, fun push hmem => ?_, fun other => ?_⟩
      · rw [hpushed, List.mem_append, List.mem_singleton] at hmem
        obtain hmem | rfl := hmem
        · exact h.names push hmem
        · exact hname
      · rw [hsame, ActorSystem.pushed_tryPushMessageTo _ (ActorRegistry.mem_actors_create.mpr hname),
          hpushed, inbox_append, inbox_singleton, h.pushed]
  · have hkept (name : String) :
        (s'.actors.actor name).pushed = (s.actors.actor name).pushed := by
      obtain hmain | ⟨u, hworker⟩ := hthread
      · obtain ⟨server, -, heq⟩ := Option.map_eq_some_iff.mp hmain
        rw [← heq]
      · exact (ActorSystem.inv_of_reachable hnames hworkers hsize h.actors).pushed_stepWorker hworker
          name
    refine ⟨hnetwork ▸ h.recorded, hactors, hnetwork ▸ h.names, fun name => ?_⟩
    rw [hkept, hnetwork]
    exact h.pushed name

/-! ### What is heard -/

theorem filter_inbox_sublist (name : String) (context : UInt32)
    (pushed : List (String × ActorMessage)) :
    ((inbox name pushed).filter (·.context = context)).Sublist
      ((pushed.filter (·.2.context = context)).map Prod.snd) := by
  have hinbox : (inbox name pushed).Sublist (pushed.map Prod.snd) := List.filter_sublist.map Prod.snd
  have hfilter := hinbox.filter (·.context = context)
  rwa [List.filter_map] at hfilter

/-- Messages about a context of which only the last one can be its notice. -/
theorem requests_then_notice_of_pairwise {l : List ActorMessage}
    (hcontext : ∀ message ∈ l, message.context = context)
    (h : l.Pairwise fun message _ => message ≠ .sessionDisconnected context) :
    ∃ requests notice, l = requests ++ notice ∧
      (∀ message ∈ requests, ∃ messageType body, message = .cts context messageType body) ∧
      (notice = [] ∨ notice = [.sessionDisconnected context]) := by
  have hcts : ∀ message ∈ l, message ≠ .sessionDisconnected context →
      ∃ messageType body, message = .cts context messageType body := by
    intro message hmem hne
    have hmessage := hcontext message hmem
    cases message with
    | cts context' messageType body =>
      obtain rfl : context' = context := hmessage
      exact ⟨messageType, body, rfl⟩
    | sessionDisconnected context' =>
      obtain rfl : context' = context := hmessage
      exact absurd rfl hne
  obtain rfl | ⟨requests, last, rfl⟩ := l.eq_nil_or_concat'
  · exact ⟨[], [], rfl, nofun, Or.inl rfl⟩
  have hrequests : ∀ message ∈ requests,
      ∃ messageType body, message = .cts context messageType body := by
    intro message hmem
    refine hcts message (List.mem_append_left _ hmem) ?_
    exact (List.pairwise_append.mp h).2.2 message hmem last (List.mem_singleton_self last)
  by_cases hlast : last = .sessionDisconnected context
  · exact ⟨requests, [last], rfl, hrequests, Or.inr (by rw [hlast])⟩
  · refine ⟨requests ++ [last], [], (List.append_nil _).symm, ?_, Or.inl rfl⟩
    intro message hmem
    obtain hmem | hmem := List.mem_append.mp hmem
    · exact hrequests message hmem
    · obtain rfl := List.mem_singleton.mp hmem
      exact hcts message (List.mem_append_right _ (List.mem_singleton_self message)) hlast

/-- Of the pushes about a context, only the last one can be its notice. -/
theorem Inv.pairwise (h : Inv names messageHandlers typeIndex s) (hcount : s.network.created ≤ 2 ^ 32)
    (context : UInt32) :
    ((s.network.pushed.filter (·.2.context = context)).map Prod.snd).Pairwise
      fun message _ => message ≠ .sessionDisconnected context := by
  obtain ⟨history, hrecorded⟩ := h.recorded
  obtain ⟨requests, notice, hfilter, hrequests, hnotice⟩ :=
    hrecorded.requests_then_notice hcount context
  rw [hfilter, List.pairwise_map, List.pairwise_append]
  refine ⟨List.pairwise_of_forall_mem_list fun push hmem _ _ => hrequests push hmem, ?_,
    fun push hmem _ _ => hrequests push hmem⟩
  obtain rfl | ⟨name, rfl⟩ := hnotice
  · exact List.Pairwise.nil
  · exact List.pairwise_singleton _ _

/-- No two actors are pushed the notice of one context. -/
theorem Inv.notice_unique (h : Inv names messageHandlers typeIndex s)
    (hcount : s.network.created ≤ 2 ^ 32) {other : String}
    (hname : (name, .sessionDisconnected context) ∈ s.network.pushed)
    (hother : (other, .sessionDisconnected context) ∈ s.network.pushed) : name = other := by
  obtain ⟨history, hrecorded⟩ := h.recorded
  obtain ⟨requests, notice, hfilter, hrequests, hnotice⟩ :=
    hrecorded.requests_then_notice hcount context
  have hlast (name : String) (hmem : (name, .sessionDisconnected context) ∈ s.network.pushed) :
      (name, .sessionDisconnected context) ∈ notice := by
    have hmem' : (name, .sessionDisconnected context) ∈ requests ++ notice := by
      rw [← hfilter]
      exact List.mem_filter.mpr ⟨hmem, by simp [ActorMessage.context]⟩
    obtain hmem' | hmem' := List.mem_append.mp hmem'
    · exact absurd rfl (hrequests _ hmem')
    · exact hmem'
  obtain rfl | ⟨noticed, rfl⟩ := hnotice
  · cases hlast name hname
  · have hsame := (List.mem_singleton.mp (hlast name hname)).trans
      (List.mem_singleton.mp (hlast other hother)).symm
    exact (Prod.mk.inj hsame).1

/-- What the actors hear of a context: requests, and a notice that one actor hears after them. -/
theorem Inv.heard (h : Inv names messageHandlers typeIndex s) (hnames : names.Nodup)
    (hworkers : 0 < WorkerThreadsCount.toNat)
    (hsize : names.length + WorkerThreadsCount.toNat ≤ 2 ^ 32) (hcount : s.network.created ≤ 2 ^ 32)
    (context : UInt32) :
    (∀ name, ∃ requests notice, s.heard name context = requests ++ notice ∧
      (∀ message ∈ requests, ∃ messageType body, message = .cts context messageType body) ∧
      (notice = [] ∨ notice = [.sessionDisconnected context])) ∧
    ∀ name other, .sessionDisconnected context ∈ s.heard name context →
      .sessionDisconnected context ∈ s.heard other context → other = name := by
  have hheard (name : String) : (s.heard name context).Sublist
      ((inbox name s.network.pushed).filter (·.context = context)) := by
    have hdelivered := (ActorSystem.delivered_spec hnames hworkers hsize h.actors name).1
    rw [h.pushed name] at hdelivered
    exact hdelivered.sublist.filter _
  have hpushed (name : String) (hmem : .sessionDisconnected context ∈ s.heard name context) :
      (name, .sessionDisconnected context) ∈ s.network.pushed :=
    mem_inbox.mp (List.mem_of_mem_filter ((hheard name).subset hmem))
  refine ⟨fun name => ?_, fun name other hname hother => ?_⟩
  · refine requests_then_notice_of_pairwise (fun message hmem => ?_) ?_
    · exact of_decide_eq_true (List.mem_filter.mp hmem).2
    · exact (h.pairwise hcount context).sublist ((hheard name).trans (filter_inbox_sublist ..))
  · exact h.notice_unique hcount (hpushed other hother) (hpushed name hname)

/-- Where a session has come and gone in `s` and no thread has its notice left to push, an actor has
been passed the notice by the end of the next round. -/
theorem Inv.exists_heard (hs : Inv names messageHandlers typeIndex s)
    (ht : Inv names messageHandlers typeIndex t) (hnames : names.Nodup)
    (hworkers : 0 < WorkerThreadsCount.toNat)
    (hsize : names.length + WorkerThreadsCount.toNat ≤ 2 ^ 32)
    (hactors : Reachable (ActorSystem.step (.create names) WorkerThreadsCount) s.actors t.actors)
    (hcount : s.network.created ≤ 2 ^ 32) {o : Nat} (ho : o < s.network.created)
    (htable : ¬ s.network.InTable o) (haccepts : ∀ u, (s.network.pc u).accepts ≠ some o)
    (hnotifies : ∀ u, (s.network.pc u).notifies ≠ some (NetworkServer.contextOf o))
    (hover : s.actors.server.rounds.length + 1 < t.actors.server.rounds.length ∨
      (s.actors.server.rounds.length < t.actors.server.rounds.length ∧
        t.actors.server.main ≠ .wait)) :
    ∃ name ∈ names, .sessionDisconnected (NetworkServer.contextOf o) ∈
      t.heard name (NetworkServer.contextOf o) := by
  obtain ⟨history, hrecorded⟩ := hs.recorded
  obtain ⟨name, hpushed⟩ := hrecorded.exists_notice hcount ho htable haccepts hnotifies
  have hname : name ∈ names := hs.names _ hpushed
  obtain ⟨hpart, hle⟩ :=
    ActorSystem.length_pushed_le_delivered hnames hworkers hsize hs.actors hactors hover hname
  have hdelivered := (ActorSystem.delivered_spec hnames hworkers hsize ht.actors name).1
  have hmem : .sessionDisconnected (NetworkServer.contextOf o) ∈ (s.actors.actor name).pushed := by
    rw [hs.pushed name]
    exact mem_inbox.mpr hpushed
  refine ⟨name, hname, List.mem_filter.mpr ⟨?_, by simp [ActorMessage.context]⟩⟩
  exact (List.prefix_of_prefix_length_le hpart hdelivered (by rwa [List.length_map])).subset hmem

/-! ### All runs -/

section Theorems

variable {acts acts' : List (Action WorkerThreadsCount.toNat)}

theorem inv_of_run (hnames : names.Nodup) (hworkers : 0 < WorkerThreadsCount.toNat)
    (hsize : names.length + WorkerThreadsCount.toNat ≤ 2 ^ 32)
    (hrun : run (step (.create names) WorkerThreadsCount)
      (init initialAssociatedActor WorkerThreadsCount messageHandlers typeIndex) acts = some s)
    (hfound : Meets (step (.create names) WorkerThreadsCount) ReceivesFound
      (init initialAssociatedActor WorkerThreadsCount messageHandlers typeIndex) acts) :
    Inv names messageHandlers typeIndex s :=
  run_invariant (fun _ _ _ h hok hstep => inv_step hworkers hsize hnames h hok hstep) inv_init hfound
    hrun

/-- **An actor hears the requests of a session and then that it is gone.** In every state of every run
of the network threads, the main thread and the workers, with at most 2³² connections and where
`PostReceive` locks the table for no erased session: what the handlers of an actor have been passed
about a context are requests, and after them at most one notice, which no other actor is passed too. -/
theorem hears_requests_then_notice (hnames : names.Nodup) (hworkers : 0 < WorkerThreadsCount.toNat)
    (hsize : names.length + WorkerThreadsCount.toNat ≤ 2 ^ 32)
    (hrun : run (step (.create names) WorkerThreadsCount)
      (init initialAssociatedActor WorkerThreadsCount messageHandlers typeIndex) acts = some s)
    (hfound : Meets (step (.create names) WorkerThreadsCount) ReceivesFound
      (init initialAssociatedActor WorkerThreadsCount messageHandlers typeIndex) acts)
    (hcount : s.network.created ≤ 2 ^ 32) (name : String) (context : UInt32) :
    ∃ requests notice, s.heard name context = requests ++ notice ∧
      (∀ message ∈ requests, ∃ messageType body, message = .cts context messageType body) ∧
      (notice = [] ∨ (notice = [.sessionDisconnected context] ∧
        ∀ other, other ≠ name → .sessionDisconnected context ∉ s.heard other context)) := by
  have h := inv_of_run hnames hworkers hsize hrun hfound
  obtain ⟨hsplit, hunique⟩ := h.heard hnames hworkers hsize hcount context
  obtain ⟨requests, notice, heq, hrequests, hnotice⟩ := hsplit name
  refine ⟨requests, notice, heq, hrequests, hnotice.imp_right fun hone => ⟨hone, ?_⟩⟩
  intro other hne hother
  have hmem : .sessionDisconnected context ∈ s.heard name context := by
    rw [heq, hone]
    exact List.mem_append_right _ (List.mem_singleton_self _)
  exact hne (hunique name other hmem hother)

/-- **A session that is gone has been noticed by the end of the next round.** Where, in state `s`, a
session has been accepted and erased and no thread has its notice left to push, and where a round has
begun since and is over in state `t`, or two have begun: one actor, which exists, has been passed the
notice of the session, as the last that it has heard of it, and no other actor has. -/
theorem disconnect_heard_once (hnames : names.Nodup) (hworkers : 0 < WorkerThreadsCount.toNat)
    (hsize : names.length + WorkerThreadsCount.toNat ≤ 2 ^ 32)
    (hrun : run (step (.create names) WorkerThreadsCount)
      (init initialAssociatedActor WorkerThreadsCount messageHandlers typeIndex) acts = some s)
    (hrun' : run (step (.create names) WorkerThreadsCount) s acts' = some t)
    (hfound : Meets (step (.create names) WorkerThreadsCount) ReceivesFound
      (init initialAssociatedActor WorkerThreadsCount messageHandlers typeIndex) (acts ++ acts'))
    (hcount : t.network.created ≤ 2 ^ 32) {o : Nat} (ho : o < s.network.created)
    (htable : ¬ s.network.InTable o) (haccepts : ∀ u, (s.network.pc u).accepts ≠ some o)
    (hnotifies : ∀ u, (s.network.pc u).notifies ≠ some (NetworkServer.contextOf o))
    (hover : s.actors.server.rounds.length + 1 < t.actors.server.rounds.length ∨
      (s.actors.server.rounds.length < t.actors.server.rounds.length ∧
        t.actors.server.main ≠ .wait)) :
    ∃ name ∈ names,
      (∃ requests, t.heard name (NetworkServer.contextOf o) =
        requests ++ [.sessionDisconnected (NetworkServer.contextOf o)]) ∧
      ∀ other, .sessionDisconnected (NetworkServer.contextOf o) ∈
        t.heard other (NetworkServer.contextOf o) → other = name := by
  have hs := inv_of_run hnames hworkers hsize hrun hfound.of_append
  have ht := inv_of_run hnames hworkers hsize (run_append hrun hrun') hfound
  have hcount' := (created_le ⟨acts', hrun'⟩).trans hcount
  obtain ⟨hsplit, hunique⟩ :=
    ht.heard hnames hworkers hsize hcount (NetworkServer.contextOf o)
  obtain ⟨name, hname, hmem⟩ := hs.exists_heard ht hnames hworkers hsize
    (reachable_actors ⟨acts', hrun'⟩) hcount' ho htable haccepts hnotifies hover
  refine ⟨name, hname, ?_, fun other hother => hunique name other hmem hother⟩
  obtain ⟨requests, notice, heq, hrequests, rfl | rfl⟩ := hsplit name
  · rw [heq, List.append_nil] at hmem
    obtain ⟨_, _, hcts⟩ := hrequests _ hmem
    cases hcts
  · exact ⟨requests, heq⟩

end Theorems

instance {n : Nat} (s : ServerProcess n) (act : Action n) : Decidable (s.ReceivesFound act) := by
  unfold ReceivesFound
  split <;> infer_instance

/-- A server with two workers and two actors. -/
def authServer : ServerProcess (UInt32.toNat 2) :=
  init "A_Auth" 2 (fun _ _ => true) fun _ => 0

/-- A client connects, sends a request and disconnects. -/
def requestAndDisconnect : List NetworkServer.Action :=
  let accept (k : Nat) := List.replicate k (NetworkServer.Action.run 2 {})
  let receive (k : Nat) := List.replicate k (NetworkServer.Action.run 3 {})
  [NetworkServer.Action.start 2 .accept] ++ accept 4 ++
    [NetworkServer.Action.start 3 (.completion .receive 0 true 11)] ++ receive 5 ++
    [NetworkServer.Action.run 3 { message := some (5, [7]) }] ++ receive 1 ++
    [NetworkServer.Action.start 3 (.completion .receive 0 true 0)] ++ receive 12

/-- The workers run one round: while the first one is in the `Run` of `A_Auth`, the second one runs
the other actor. -/
def oneRound : List (Action (UInt32.toNat 2)) :=
  let first := Action.worker ⟨0, Nat.two_pos⟩
  let second := Action.worker ⟨1, Nat.one_lt_two⟩
  [.main, .main, .main] ++ (List.replicate 12 [first, second]).flatten ++ List.replicate 3 first ++
    [.main]

theorem hears_requests_then_notice_requestAndDisconnect :
    ∃ s, run (step (.create ["A_Auth", "A_Field"]) 2) authServer
        (requestAndDisconnect.map .network ++ oneRound) = some s ∧
      s.heard "A_Auth" 0 = [.cts 0 5 [7], .sessionDisconnected 0] ∧
      ∀ other, other ≠ "A_Auth" → .sessionDisconnected 0 ∉ s.heard other 0 := by
  obtain ⟨s, hrun, hheard, hcreated⟩ : ∃ s, run (step (.create ["A_Auth", "A_Field"]) 2) authServer
      (requestAndDisconnect.map .network ++ oneRound) = some s ∧
      s.heard "A_Auth" 0 = [.cts 0 5 [7], .sessionDisconnected 0] ∧ s.network.created = 1 :=
    ⟨_, rfl, rfl, rfl⟩
  refine ⟨s, hrun, hheard, ?_⟩
  obtain ⟨requests, notice, heq, hrequests, hnotice⟩ :=
    hears_requests_then_notice (by decide) (by decide) (by decide)
      (show run _ (init "A_Auth" 2 (fun _ _ => true) fun _ => 0) _ = some s from hrun)
      (by decide +kernel) (by rw [hcreated]; decide) "A_Auth" 0
  obtain rfl | ⟨-, hother⟩ := hnotice
  · rw [hheard, List.append_nil] at heq
    obtain ⟨_, _, hcts⟩ := hrequests (.sessionDisconnected 0) (by simp [← heq])
    cases hcts
  · exact hother

theorem disconnect_heard_once_requestAndDisconnect :
    ∃ s t, run (step (.create ["A_Auth", "A_Field"]) 2) authServer
        (requestAndDisconnect.map .network) = some s ∧
      run (step (.create ["A_Auth", "A_Field"]) 2) s oneRound = some t ∧
      ∃ name ∈ ["A_Auth", "A_Field"],
        ∃ requests, t.heard name 0 = requests ++ [.sessionDisconnected 0] := by
  obtain ⟨s, hrun, hcreated, hidle, hsessions, t, hrun', hcreated', hbegun, hmain⟩ : ∃ s,
      run (step (.create ["A_Auth", "A_Field"]) 2) authServer
        (requestAndDisconnect.map .network) = some s ∧
      s.network.created = 1 ∧ (∀ u, s.network.pc u = .idle) ∧
      s.network.sessions = Function.update (Function.update (fun _ => none) 0 (some 0)) 0 none ∧
      ∃ t, run (step (.create ["A_Auth", "A_Field"]) 2) s oneRound = some t ∧ t.network.created = 1 ∧
        s.actors.server.rounds.length < t.actors.server.rounds.length ∧
        t.actors.server.main ≠ .wait := by
    refine ⟨_, rfl, rfl, fun u => ?_, rfl, _, rfl, rfl, by decide, by decide⟩
    match u with
    | 0 | 1 | 2 | 3 | u + 4 => rfl
  have htable : ¬ s.network.InTable 0 := by
    rintro ⟨context, hcontext⟩
    rw [hsessions, Function.update_idem, Function.update_apply] at hcontext
    split_ifs at hcontext
  obtain ⟨name, hname, hheard, -⟩ :=
    disconnect_heard_once (o := 0) (by decide) (by decide) (by decide)
      (show run _ (init "A_Auth" 2 (fun _ _ => true) fun _ => 0) _ = some s from hrun) hrun'
      (by decide +kernel) (by rw [hcreated']; decide) (by rw [hcreated]; decide) htable
      (by simp [hidle, NetworkServer.Pc.accepts]) (by simp [hidle, NetworkServer.Pc.notifies])
      (Or.inr ⟨hbegun, hmain⟩)
  exact ⟨s, t, hrun, hrun', name, hname, hheard⟩

end ServerProcess

end RatkiniaServer
