import RatkiniaServer.Proofs.ThreadSteps
import Mathlib.Algebra.Group.Nat.Defs

/-!
# The steps of a `NetworkServer`

`Moves` says once what a step of a thread can do to `sessionsMutex_`, to the flags and the operations
of a session, and to the table. The invariant follows from it for every run: the mutex records what
the threads hold, each flag stands for a token that is with a thread or with an operation that is out,
and the table has each session under its own context.
-/

namespace RatkiniaServer.NetworkServer

open Threads Transition

variable {s s' r : NetworkServer} {t : Nat} {p q : Pc} {a : Action}

/-! ## What a program counter holds -/

/-- How many times the thread holds `sessionsMutex_` in shared mode. -/
def Pc.shared : Pc → Nat
  | .postSendLocked _ | .initiateSendLocked _ | .trySend _ _ | .sendLoop _ _ | .wsaSend _ _ => 1
  | .postReceiveLocked _ _ | .received _ _ | .rearm _ | .rearming _ | .draining _ _ => 1
  | .messageLocked _ | .messagePushed _ | .messageInitiating _ => 1
  | .cleanup _ held | .cleanupFind _ held | .cleanupClose _ _ held | .cleanupTest _ _ held =>
    held.toNat
  | .cleanupClosed _ held | .cleanupLocked _ held | .cleanupErased _ _ held => held.toNat
  | .cleanupShared _ held => held.toNat + 1
  | _ => 0

/-- The thread holds `sessionsMutex_` in exclusive mode. -/
def Pc.exclusive : Pc → Bool
  | .acceptLocked _ | .changeLocked _ _ _ | .cleanupLocked _ _ => true
  | _ => false

/-- How the thread holds `sessionsMutex_`. -/
def Pc.locks (p : Pc) : Nat × Bool := (p.shared, p.exclusive)

/-- The operation that the thread has the token of: its flag is on, and no call is out. -/
def Pc.token : Pc → Option (IoType × Nat)
  | .acceptReceiving o | .postReceive o _ | .postReceiveLocked o _ | .rearming o =>
    some (.receive, o)
  | .failed type o => some (type, o)
  | .postSend o | .postSendLocked o | .sendLoop _ o | .wsaSend _ o => some (.send, o)
  | .initiateSend o | .initiateSendLocked o | .messageInitiating o => some (.initiateSend, o)
  | _ => none

/-- The thread has the token of an operation. -/
def Pc.owns (key : IoType × Nat) (p : Pc) : Bool := p.token = some key

/-- The thread is in a `SessionCleanupRoutine` that the InitiateSend handler has called. -/
def Pc.held : Pc → Bool
  | .cleanup _ held | .cleanupShared _ held | .cleanupFind _ held | .cleanupClose _ _ held => held
  | .cleanupTest _ _ held | .cleanupClosed _ held | .cleanupLocked _ held => held
  | .cleanupErased _ _ held => held
  | _ => false

/-- The thread is in a `TrySendAsync` that the InitiateSend handler has called. -/
def Pc.initiateSending : Pc → Bool
  | .trySend handler _ | .sendLoop handler _ | .wsaSend handler _ => handler = .initiateSend
  | _ => false

theorem Pc.session_of_token {key : IoType × Nat} (h : p.token = some key) :
    p.session = some key.2 := by
  cases p <;> simp only [token, reduceCtorEq, Option.some.injEq] at h <;> rw [← h] <;> rfl

/-- A pointer to a session is covered by the mutex, by the token of an operation, or not at all. -/
theorem Pc.covered {o : Nat} (h : p.session = some o) :
    0 < p.shared ∨ (∃ type, p.token = some (type, o)) ∨ p.unguarded = some o := by
  cases p <;> simp_all [session, shared, token, unguarded]

/-! ## What a step does -/

/-- What a step from `q` to `p` does to the mutex. -/
inductive LockStep (t : Nat) (q p : Pc) (m : SharedMutex Nat) : SharedMutex Nat → Prop
  | keep (h : p.locks = q.locks) : LockStep t q p m m
  | lockShared {m' : SharedMutex Nat} (hm : m.lockShared t = some m')
      (h : p.locks = (q.shared + 1, q.exclusive)) : LockStep t q p m m'
  | unlockShared (h : (p.shared + 1, p.exclusive) = q.locks) :
      LockStep t q p m (m.unlockShared t)
  | lock {m' : SharedMutex Nat} (hm : m.lock t = some m') (h : p.locks = (q.shared, true)) :
      LockStep t q p m m'
  | unlock (h : p.locks = (q.shared, false)) (hq : q.exclusive = true) : LockStep t q p m m.unlock

/-- What a step from `q` to `p` does to the flags and the operations. -/
inductive TokenStep (q p : Pc) (online : IoType × Nat → Bool) (pending : IoType × Nat → Nat) :
    (IoType × Nat → Bool) → (IoType × Nat → Nat) → Prop
  | keep (h : p.token = q.token) : TokenStep q p online pending online pending
  | take (key : IoType × Nat) (hoff : online key = false) (h : (q.token, p.token) = (none, some key)) :
      TokenStep q p online pending (Function.update online key true) pending
  | release (key : IoType × Nat) (h : (q.token, p.token) = (some key, none)) :
      TokenStep q p online pending (Function.update online key false) pending
  | give (key : IoType × Nat) (h : (q.token, p.token) = (some key, none)) :
      TokenStep q p online pending online (Function.update pending key (pending key + 1))
  | accept (key : IoType × Nat) (hpending : pending key ≠ 0)
      (h : (q.token, p.token) = (none, some key)) :
      TokenStep q p online pending online (Function.update pending key (pending key - 1))

/-- What a step from `q` to `p` does to the table, and where a new pointer comes from. -/
inductive TableStep (s : NetworkServer) (q p : Pc) : (UInt32 → Option Nat) → Prop
  | keep (hp : ∀ o, p.session = some o → q.session = some o ∨ s.Refers o ∨ s.InTable o) :
      TableStep s q p s.sessions
  | emplace (o : Nat) (hfree : s.sessions (contextOf o) = none) (hp : p.session = some o) :
      TableStep s q p (Function.update s.sessions (contextOf o) (some o))
  | erase (context : UInt32) (held : Bool) (o : Nat) (hq : q = .cleanupLocked context held)
      (hfound : s.sessions context = some o) (hp : p.session = none) :
      TableStep s q p (Function.update s.sessions context none)

/-- A step of the thread `t` from `q` to `p`. -/
structure Moves (s : NetworkServer) (t : Nat) (q p : Pc) (s' : NetworkServer) : Prop where
  pc : s'.pc = Function.update s.pc t p
  lock : LockStep t q p s.sessionsMutex s'.sessionsMutex
  token : TokenStep q p s.isIoOnline s.pending s'.isIoOnline s'.pending
  table : TableStep s q p s'.sessions
  held : p.held = true → q.held = true ∨ q.initiateSending = true

/-! ## The invariant -/

/-- The invariant. -/
structure Inv (s : NetworkServer) : Prop where
  locks : s.sessionsMutex.Sound Pc.shared Pc.exclusive s.pc
  tokens : ∀ key, Token (Pc.owns key) s.pc (s.pending key ≠ 0) (s.isIoOnline key)
  single : ∀ key, s.pending key ≤ 1
  table : ∀ context o, s.sessions context = some o → contextOf o = context

theorem inv_init (actor : String) : Inv (init actor) where
  locks := ⟨fun _ => rfl, fun _ => by simp [init, SharedMutex.free, Pc.exclusive], fun _ => rfl⟩
  tokens _ := .off_of (fun _ => rfl) (by simp [init])
  single _ := Nat.zero_le _
  table _ _ h := by cases h

theorem LockStep.sound {m m' : SharedMutex Nat} {pc : Nat → Pc} (hstep : LockStep t q p m m')
    (h : m.Sound Pc.shared Pc.exclusive pc) (hq : pc t = q) :
    m'.Sound Pc.shared Pc.exclusive (Function.update pc t p) := by
  subst hq
  cases hstep with
  | keep hp => exact h.move (Prod.mk.inj hp).1 (Prod.mk.inj hp).2
  | lockShared hm hp => exact h.lockShared hm (Prod.mk.inj hp).1 (Prod.mk.inj hp).2
  | unlockShared hp => exact h.unlockShared (Prod.mk.inj hp).1 (Prod.mk.inj hp).2
  | lock hm hp => exact h.lock hm (Prod.mk.inj hp).1 (Prod.mk.inj hp).2
  | unlock hp hq => exact h.unlock hq (Prod.mk.inj hp).1 (Prod.mk.inj hp).2

theorem Pc.owns_of_token {key : IoType × Nat} (h : p.token = some key) : p.owns key = true := by
  simp [owns, h]

theorem Pc.owns_eq_false {key : IoType × Nat} (h : p.token ≠ some key) : p.owns key = false := by
  simp [owns, h]

theorem TokenStep.tokens {online online' : IoType × Nat → Bool} {pending pending' : IoType × Nat → Nat}
    {pc : Nat → Pc} (hstep : TokenStep q p online pending online' pending') (hq : pc t = q)
    (h : ∀ key, Token (Pc.owns key) pc (pending key ≠ 0) (online key))
    (hsingle : ∀ key, pending key ≤ 1) (key : IoType × Nat) :
    Token (Pc.owns key) (Function.update pc t p) (pending' key ≠ 0) (online' key) ∧
      pending' key ≤ 1 := by
  subst hq
  -- The tokens of all other operations stay where they are.
  have hother : ∀ key', (p.token = some key' ∧ (pc t).token = none ∨
      (pc t).token = some key' ∧ p.token = none) → key ≠ key' →
        Token (Pc.owns key) (Function.update pc t p) (pending key ≠ 0) (online key) := by
    intro key' hkey hne
    refine (h key).move ?_
    rcases hkey with ⟨hp, hq⟩ | ⟨hq, hp⟩ <;> simp [Pc.owns, hp, hq, hne.symm]
  cases hstep with
  | keep hp => exact ⟨(h key).move (by rw [Pc.owns, Pc.owns, hp]), hsingle key⟩
  | take key' hoff hkey =>
    obtain ⟨hq, hp⟩ := Prod.mk.inj hkey
    refine ⟨?_, hsingle key⟩
    rcases eq_or_ne key key' with rfl | hne
    · have htoken := h key
      rw [hoff] at htoken
      rw [Function.update_self]
      exact htoken.take (Pc.owns_of_token hp)
    · rw [Function.update_of_ne hne]
      exact hother key' (Or.inl ⟨hp, hq⟩) hne
  | release key' hkey =>
    obtain ⟨hq, hp⟩ := Prod.mk.inj hkey
    refine ⟨?_, hsingle key⟩
    rcases eq_or_ne key key' with rfl | hne
    · rw [Function.update_self]
      exact (h key).release (Pc.owns_of_token hq) (Pc.owns_eq_false (by simp [hp]))
    · rw [Function.update_of_ne hne]
      exact hother key' (Or.inr ⟨hq, hp⟩) hne
  | give key' hkey =>
    obtain ⟨hq, hp⟩ := Prod.mk.inj hkey
    rcases eq_or_ne key key' with rfl | hne
    · have hnone : pending key = 0 := of_not_not ((h key).of_mem (Pc.owns_of_token hq)).2
      rw [Function.update_self, hnone]
      exact ⟨(h key).give (Pc.owns_of_token hq) (Pc.owns_eq_false (by simp [hp])) (by simp),
        Nat.le_refl _⟩
    · rw [Function.update_of_ne hne]
      exact ⟨hother key' (Or.inr ⟨hq, hp⟩) hne, hsingle key⟩
  | accept key' hpending hkey =>
    obtain ⟨hq, hp⟩ := Prod.mk.inj hkey
    rcases eq_or_ne key key' with rfl | hne
    · have hone : pending key - 1 = 0 := by
        have hle := hsingle key
        omega
      rw [Function.update_self, hone]
      exact ⟨(h key).accept hpending (Pc.owns_of_token hp) (by simp), Nat.zero_le _⟩
    · rw [Function.update_of_ne hne]
      exact ⟨hother key' (Or.inl ⟨hp, hq⟩) hne, hsingle key⟩

theorem TableStep.table {sessions : UInt32 → Option Nat} (hstep : TableStep s q p sessions)
    (h : ∀ context o, s.sessions context = some o → contextOf o = context) :
    ∀ context o, sessions context = some o → contextOf o = context := by
  intro context o ho
  cases hstep with
  | keep hp => exact h context o ho
  | emplace o' hfree hp =>
    rcases eq_or_ne context (contextOf o') with rfl | hne
    · rw [Function.update_self] at ho
      rw [Option.some.inj ho]
    · rw [Function.update_of_ne hne] at ho
      exact h context o ho
  | erase context' held o' hq hfound hp =>
    rcases eq_or_ne context context' with rfl | hne
    · rw [Function.update_self] at ho
      cases ho
    · rw [Function.update_of_ne hne] at ho
      exact h context o ho

theorem Moves.inv (hmoves : Moves s t q p s') (h : Inv s) (hq : s.pc t = q) : Inv s' where
  locks := by
    rw [hmoves.pc]
    exact hmoves.lock.sound h.locks hq
  tokens key := by
    rw [hmoves.pc]
    exact (hmoves.token.tokens hq h.tokens h.single key).1
  single key := (hmoves.token.tokens hq h.tokens h.single key).2
  table := hmoves.table.table h.table

/-! ## All steps -/

theorem LockStep.of_unlockSharedIf (b : Bool) (h : (p.shared + b.toNat, p.exclusive) = q.locks) :
    LockStep t q p s.sessionsMutex (s.unlockSharedIf t b).sessionsMutex := by
  cases b with
  | true => exact .unlockShared h
  | false => exact .keep h

theorem Runs.pc_goto (h : Runs s t q p r) : (r.goto t p).pc = Function.update s.pc t p := by
  cases h <;> rfl

theorem Runs.lockStep (h : Runs s t q p r) : LockStep t q p s.sessionsMutex r.sessionsMutex := by
  cases h with
  | acceptCreated _ hm | change _ _ _ hm | cleanupClosed _ _ hm => exact .lock hm rfl
  | postSend _ hm | initiateSend _ hm | postReceive _ _ hm | message _ hm | cleanup _ _ hm =>
    exact .lockShared hm rfl
  | acceptLocked | changeLocked | changeLocked_fails | erase | erase_none => exact .unlock rfl rfl
  | trySend_nothing | wsaSend | drained | drained_fails | messageLocked_none | messagePushed_online
  | messageInitiating | cleanupShared => exact .of_unlockSharedIf true rfl
  | trySend_fails handler | sendLoop_fails handler | wsaSend_fails handler =>
    cases handler with
    | postSend => exact .of_unlockSharedIf true rfl
    | initiateSend => exact .of_unlockSharedIf false rfl
  | cleanupFind_none _ held | cleanupTest_online _ _ held | notify _ _ held | notify_none _ held =>
    exact .of_unlockSharedIf held (Prod.ext (Nat.zero_add _) rfl)
  | _ => exact .keep rfl

theorem Runs.tokenStep (h : Runs s t q p r) :
    TokenStep q p s.isIoOnline s.pending r.isIoOnline r.pending := by
  cases h with
  | acceptEmplaced _ hoff | rearm _ hoff | messagePushed _ hoff | trySend _ _ hoff =>
    exact .take _ hoff rfl
  | acceptReceiving | wsaSend | rearming | messageInitiating => exact .give _ rfl
  | acceptReceiving_fails | failed | postSendLocked | initiateSendLocked | sendLoop_fails
  | wsaSend_fails | postReceiveLocked | rearming_fails => exact .release _ rfl
  | _ => exact .keep rfl

theorem Runs.tableStep (h : Runs s t q p r) : TableStep s q p r.sessions := by
  cases h with
  | acceptLocked o hfree => exact .emplace o hfree rfl
  | erase context held o hfound => exact .erase context held o rfl hfound rfl
  | messageLocked context o hfound | cleanupFind context held o hfound =>
    exact .keep fun o' ho' => Or.inr (Or.inr ⟨context, hfound.trans ho'⟩)
  | acceptEmplaced | postSend | postSendLocked | initiateSend | initiateSendLocked | trySend
  | sendLoop | postReceive | postReceiveLocked | received | received_fails | rearm | rearm_fails
  | rearming | rearming_fails | dispatch | messagePushed | cleanupClose =>
    exact .keep fun _ ho => Or.inl ho
  | _ => exact .keep nofun

theorem Runs.held_of (h : Runs s t q p r) (hp : p.held = true) :
    q.held = true ∨ q.initiateSending = true := by
  cases h with
  | trySend_fails handler | sendLoop_fails handler | wsaSend_fails handler =>
    cases handler with
    | postSend => cases hp
    | initiateSend => exact Or.inr rfl
  | cleanup | cleanupShared | cleanupFind | cleanupClose | cleanupTest | cleanupClosed | erase
  | erase_none => exact Or.inl hp
  | _ => cases hp

theorem moves_of_runStep {answers : Answers} (hstep : s.runStep t answers = some s') :
    ∃ p, Moves s t (s.pc t) p s' := by
  obtain ⟨p, r, h, rfl⟩ := runs_of_runStep hstep
  exact ⟨p, h.pc_goto, h.lockStep, h.tokenStep, h.tableStep, h.held_of⟩

/-- A thread that begins has a pointer to the session of which it handles a completion. -/
theorem Begins.moves {handler : Handler} (h : Begins s handler p r) :
    Moves s t .idle p (r.goto t p) := by
  have haccepted {type : IoType} {o o' : Nat} (hpending : s.pending (type, o) ≠ 0)
      (ho : some o = some o') : s.Refers o' := Option.some.inj ho ▸ Or.inl ⟨type, hpending⟩
  cases h with
  | postSend o n hpending | postReceive o n hpending | initiateSend o n hpending
  | failed type o n hpending =>
    exact ⟨rfl, .keep rfl, .accept _ hpending rfl,
      .keep fun _ ho => Or.inr (Or.inl (haccepted hpending ho)), nofun⟩
  | _ => exact ⟨rfl, .keep rfl, .keep rfl, .keep nofun, nofun⟩

theorem moves_of_startStep {handler : Handler} (hstep : s.startStep t handler = some s') :
    s.pc t = .idle ∧ ∃ p, Moves s t .idle p s' := by
  obtain ⟨hq, p, r, h, rfl⟩ := begins_of_startStep hstep
  exact ⟨hq, p, h.moves⟩

/-- The thread that an action is a step of. -/
def Action.thread : Action → Nat
  | .start t _ | .run t _ => t

/-- A step is one of those listed. -/
theorem moves_of_step (hstep : s.step a = some s') :
    ∃ p, Moves s a.thread (s.pc a.thread) p s' := by
  cases a with
  | start t handler =>
    obtain ⟨hq, p, hmoves⟩ := moves_of_startStep hstep
    exact ⟨p, by rw [show (Action.start t handler).thread = t from rfl, hq]; exact hmoves⟩
  | run t answers => exact moves_of_runStep hstep

/-- Every step keeps the invariant. -/
theorem inv_step (h : Inv s) (hstep : s.step a = some s') : Inv s' :=
  let ⟨_, hmoves⟩ := moves_of_step hstep
  hmoves.inv h rfl

end RatkiniaServer.NetworkServer
