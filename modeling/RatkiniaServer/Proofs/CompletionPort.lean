import RatkiniaServer.CompletionPort
import Mathlib.Algebra.GroupWithZero.Nat
import Mathlib.Data.List.Nodup

/-!
# The slots of `AcceptPool`, and the end of the workers

A slot that has been prepared is at one place: with the system, in the queue, or with one worker. After
the destructor has posted its packet, the queue and the workers that are leaving have one such packet
between them, so every worker gets it in its turn; the last one leaves it in the queue.
-/

namespace RatkiniaServer.CompletionPort

open Threads Transition

variable {n m : Nat} {s s' : CompletionPort n m} {act : Action n m} {b : Bool}

/-! ## Steps -/

/-- A step of a thread, not of the system. -/
def Action.ofThread : Action n m → Bool
  | .worker _ | .owner | .callReturns _ => true
  | _ => false

/-- A step of a thread that is in no call that may block. -/
def Action.outsideCalls : Action n m → Bool
  | .worker _ | .owner => true
  | _ => false

/-- What a step can do; the flag tells that a thread does it. -/
inductive Moves (s : CompletionPort n m) : Bool → CompletionPort n m → Prop
  | take (t : Fin n) (packet : Packet m) (queue : List (Packet m)) (ht : s.worker t = .waiting)
      (hq : s.queue = packet :: queue) :
      Moves s true { s.goto t (branch packet) with queue := queue }
  | accept (t : Fin n) (slot : Fin m) (ht : s.worker t = .accepted slot true) :
      Moves s true { s.goto t (.postAccept slot) with
        handedOver := s.handedOver ++ [s.clientSocket slot] }
  | postAccept (t : Fin n) (slot : Fin m) (ht : s.worker t = .postAccept slot) :
      Moves s true (s.goto t (.preparing slot))
  | lose (t : Fin n) (slot : Fin m) (ht : s.worker t = .accepted slot false) :
      Moves s true { s.goto t (.preparing slot) with lost := s.lost ++ [s.clientSocket slot] }
  | prepare (t : Fin n) (slot : Fin m) (ht : s.worker t = .preparing slot) :
      Moves s true ((s.prepareAcceptSlot slot).goto t .waiting)
  | handle (t : Fin n) (ht : s.worker t = .handling) : Moves s true (s.goto t .waiting)
  | leave (t : Fin n) (ht : s.worker t = .leaving) : Moves s true ((s.post .shutdown).goto t .returned)
  | construct (i : Fin m) (ho : s.owner = .acceptPool i) :
      Moves s true { s.prepareAcceptSlot i with owner := .acceptPool (i + 1) }
  | constructed (i : Nat) (ho : s.owner = .acceptPool i) (hi : m ≤ i) :
      Moves s true { s with owner := .running }
  | destroy (ho : s.owner = .running) : Moves s true { s.post .shutdown with owner := .joining 0 }
  | join (t : Fin n) (ho : s.owner = .joining t) (ht : s.worker t = .returned) :
      Moves s true { s with owner := .joining (t + 1) }
  | joined (t : Nat) (ho : s.owner = .joining t) (ht : n ≤ t) : Moves s true { s with owner := .joined }
  | acceptCompletes (slot : Fin m) (success : Bool) (hslot : s.inFlight slot = true) :
      Moves s false { s.post (.accept slot success) with
        inFlight := Function.update s.inFlight slot false }
  | ioCompletes : Moves s false (s.post .io)

theorem moves_of_step (hstep : step s act = some s') : Moves s act.ofThread s' := by
  cases act with
  | worker t =>
    simp only [step, stepWorker] at hstep
    cases ht : s.worker t with
    | waiting =>
      simp only [ht] at hstep
      cases hq : s.queue with
      | nil => simp [hq] at hstep
      | cons packet queue =>
        simp only [hq, Option.some.injEq] at hstep
        exact hstep ▸ .take t packet queue ht hq
    | accepted slot success =>
      cases success with
      | true =>
        simp only [ht, Option.some.injEq] at hstep
        exact hstep ▸ .accept t slot ht
      | false =>
        simp only [ht, Option.some.injEq] at hstep
        exact hstep ▸ .lose t slot ht
    | preparing slot =>
      simp only [ht, Option.some.injEq] at hstep
      exact hstep ▸ .prepare t slot ht
    | postAccept slot | handling => simp [ht] at hstep
    | leaving =>
      simp only [ht, Option.some.injEq] at hstep
      exact hstep ▸ .leave t ht
    | returned => simp [ht] at hstep
  | owner =>
    simp only [step, stepOwner] at hstep
    cases ho : s.owner with
    | acceptPool i =>
      simp only [ho] at hstep
      split_ifs at hstep with hi
      · exact Option.some.inj hstep ▸ .construct ⟨i, hi⟩ ho
      · exact Option.some.inj hstep ▸ .constructed i ho (by omega)
    | running =>
      simp only [ho, Option.some.injEq] at hstep
      exact hstep ▸ .destroy ho
    | joining t =>
      simp only [ho] at hstep
      split_ifs at hstep with ht hreturned
      · exact Option.some.inj hstep ▸ .join ⟨t, ht⟩ ho hreturned
      · exact Option.some.inj hstep ▸ .joined t ho (by omega)
    | joined => simp [ho] at hstep
  | callReturns t =>
    simp only [step, callReturns] at hstep
    cases ht : s.worker t with
    | postAccept slot =>
      simp only [ht, Option.some.injEq] at hstep
      exact hstep ▸ .postAccept t slot ht
    | handling =>
      simp only [ht, Option.some.injEq] at hstep
      exact hstep ▸ .handle t ht
    | _ => simp [ht] at hstep
  | acceptCompletes slot success =>
    simp only [step] at hstep
    split_ifs at hstep with hslot
    exact Option.some.inj hstep ▸ .acceptCompletes slot success hslot
  | ioCompletes => exact Option.some.inj hstep ▸ .ioCompletes

/-! ## The slots -/

/-- The packet is a completion of the slot. -/
def isAccept (slot : Fin m) : Packet m → Bool
  | .accept other _ => other = slot
  | _ => false

/-- The worker has a completion of the slot. -/
def handles (slot : Fin m) : WorkerPc m → Bool
  | .accepted other _ => other = slot
  | _ => false

/-- The worker is in `PostAccept` with the slot, or is going to prepare it. -/
def prepares (slot : Fin m) : WorkerPc m → Bool
  | .postAccept other | .preparing other => other = slot
  | _ => false

/-- At how many places the slot has a socket that no connection uses yet. -/
def armed (s : CompletionPort n m) (slot : Fin m) : Nat :=
  (s.inFlight slot).toNat + s.queue.countP (isAccept slot) + count (handles slot) s.worker

/-- A slot that has been prepared is at one place. -/
structure Slots (s : CompletionPort n m) : Prop where
  bound : prepared s ≤ m
  one : ∀ slot, armed s slot + count (prepares slot) s.worker = if slot < prepared s then 1 else 0

theorem handles_branch (slot : Fin m) (packet : Packet m) :
    handles slot (branch packet) = isAccept slot packet := by
  cases packet <;> rfl

theorem prepares_branch (slot : Fin m) (packet : Packet m) :
    prepares slot (branch packet) = false := by
  cases packet <;> rfl

theorem armed_post {packet : Packet m} (slot : Fin m) :
    armed (s.post packet) slot = armed s slot + (isAccept slot packet).toNat := by
  simp only [armed, post, List.countP_append, List.countP_singleton]
  cases isAccept slot packet <;> simp
  omega

/-- The places of a slot where a worker goes on. -/
theorem armed_goto (s : CompletionPort n m) (t : Fin n) (p : WorkerPc m) (slot : Fin m) :
    armed (s.goto t p) slot + (handles slot (s.worker t)).toNat =
      armed s slot + (handles slot p).toNat := by
  have hcount := count_update (handles slot) s.worker t p
  simp only [armed, goto]
  omega

theorem prepares_goto (s : CompletionPort n m) (t : Fin n) (p : WorkerPc m) (slot : Fin m) :
    count (prepares slot) (s.goto t p).worker + (prepares slot (s.worker t)).toNat =
      count (prepares slot) s.worker + (prepares slot p).toNat :=
  count_update (prepares slot) s.worker t p

/-- A worker takes a packet from the queue. -/
theorem armed_take {t : Fin n} {packet : Packet m} {queue : List (Packet m)}
    (ht : s.worker t = .waiting) (hq : s.queue = packet :: queue) (slot : Fin m) :
    armed { s.goto t (branch packet) with queue := queue } slot = armed s slot := by
  have hcount := count_update (handles slot) s.worker t (branch packet)
  have hwaiting : (handles slot (s.worker t)).toNat = 0 := by rw [ht]; rfl
  have hpacket : s.queue.countP (isAccept slot) =
      queue.countP (isAccept slot) + (isAccept slot packet).toNat := by
    rw [hq, List.countP_cons]
    cases isAccept slot packet <;> rfl
  rw [handles_branch] at hcount
  simp only [armed, goto]
  omega

/-- A completion goes from the system to the queue. -/
theorem armed_acceptCompletes {slot : Fin m} (hslot : s.inFlight slot = true) (success : Bool)
    (other : Fin m) :
    armed { s.post (.accept slot success) with
      inFlight := Function.update s.inFlight slot false } other = armed s other := by
  have hpost : armed (s.post (.accept slot success)) other =
      armed s other + (isAccept other (.accept slot success)).toNat := armed_post other
  simp only [armed, post] at hpost ⊢
  by_cases heq : other = slot
  · subst heq
    simp only [Function.update_self, hslot, isAccept, decide_true, Bool.toNat_true,
      Bool.toNat_false] at hpost ⊢
    omega
  · simp only [Function.update_of_ne heq, isAccept, Ne.symm heq, decide_false,
      Bool.toNat_false] at hpost ⊢
    omega

/-- A slot that is not armed is prepared. -/
theorem armed_prepareAcceptSlot {slot : Fin m} (hslot : s.inFlight slot = false) (other : Fin m) :
    armed (s.prepareAcceptSlot slot) other = armed s other + if other = slot then 1 else 0 := by
  simp only [armed, prepareAcceptSlot]
  by_cases heq : other = slot
  · subst heq
    simp [hslot]
    omega
  · simp [heq]

theorem armed_init (slot : Fin m) : armed (init : CompletionPort n m) slot = 0 := by
  have hhandles : count (handles slot) (init : CompletionPort n m).worker = 0 :=
    count_eq_zero.mpr fun _ => rfl
  simp only [armed, hhandles]
  simp [init]

theorem slots_init : Slots (init : CompletionPort n m) where
  bound := Nat.zero_le _
  one slot := by
    have hprepares : count (prepares slot) (init : CompletionPort n m).worker = 0 :=
      count_eq_zero.mpr fun _ => rfl
    rw [armed_init, hprepares]
    simp [init, prepared]

/-- A slot that a worker is going to prepare is nowhere else. -/
theorem Slots.not_inFlight (h : Slots s) {slot : Fin m}
    (hslot : count (prepares slot) s.worker ≠ 0 ∨ prepared s ≤ slot) : s.inFlight slot = false := by
  have hone := h.one slot
  cases hflight : s.inFlight slot with
  | false => rfl
  | true =>
    simp only [armed, hflight, Bool.toNat_true] at hone
    split_ifs at hone <;> omega

/-- The places of the slots after a step of a worker that changes nothing else about them. -/
theorem Slots.goto (h : Slots s) {t : Fin n} {p : WorkerPc m}
    (hp : ∀ slot, (handles slot p).toNat + (prepares slot p).toNat =
      (handles slot (s.worker t)).toNat + (prepares slot (s.worker t)).toNat) :
    Slots (s.goto t p) := by
  refine ⟨h.bound, fun slot => ?_⟩
  have harmed := armed_goto s t p slot
  have hprepares := prepares_goto s t p slot
  have hone := h.one slot
  have hsame := hp slot
  have hprepared : prepared (s.goto t p) = prepared s := rfl
  rw [hprepared]
  omega

theorem slots_step (h : Slots s) (hmoves : Moves s b s') : Slots s' := by
  cases hmoves with
  | take t packet queue ht hq =>
    refine ⟨h.bound, fun slot => ?_⟩
    have hprepares := prepares_goto s t (branch packet) slot
    rw [prepares_branch, ht] at hprepares
    have hone := h.one slot
    show armed _ slot + count (prepares slot) (s.goto t (branch packet)).worker =
      if slot < prepared s then 1 else 0
    rw [armed_take ht hq]
    simp only [prepares, Bool.toNat_false] at hprepares
    omega
  | accept t slot ht =>
    have hgoto : Slots (s.goto t (.postAccept slot)) := h.goto fun other => by
      simp [ht, handles, prepares]
    exact ⟨hgoto.bound, hgoto.one⟩
  | lose t slot ht =>
    have hgoto : Slots (s.goto t (.preparing slot)) := h.goto fun other => by
      simp [ht, handles, prepares]
    exact ⟨hgoto.bound, hgoto.one⟩
  | postAccept t slot ht => exact h.goto fun other => by rw [ht]; rfl
  | prepare t slot ht =>
    have hmine : prepares slot (s.worker t) = true := by simp [ht, prepares]
    have hflight := h.not_inFlight (Or.inl (Nat.ne_of_gt (count_pos hmine)))
    refine ⟨h.bound, fun other => ?_⟩
    have harmed := armed_goto (s.prepareAcceptSlot slot) t .waiting other
    rw [armed_prepareAcceptSlot hflight] at harmed
    have hprepares := prepares_goto (s.prepareAcceptSlot slot) t .waiting other
    have hone := h.one other
    have hworker : (s.prepareAcceptSlot slot).worker t = .preparing slot := ht
    simp only [hworker, handles, prepares, Bool.toNat_false] at harmed hprepares
    have hsame : count (prepares other) (s.prepareAcceptSlot slot).worker =
        count (prepares other) s.worker := rfl
    have hprepared : prepared ((s.prepareAcceptSlot slot).goto t .waiting) = prepared s := rfl
    rw [hprepared]
    by_cases heq : other = slot
    · subst heq
      simp only [decide_true, Bool.toNat_true, if_true] at harmed hprepares
      omega
    · simp only [heq, Ne.symm heq, decide_false, Bool.toNat_false, if_false] at harmed hprepares
      omega
  | handle t ht => exact h.goto fun slot => by rw [ht]; rfl
  | leave t ht =>
    have hpost : Slots (s.post .shutdown) := ⟨h.bound, fun slot => by
      rw [armed_post]
      exact h.one slot⟩
    exact hpost.goto fun slot => by
      have hworker : (s.post .shutdown).worker t = .leaving := ht
      rw [hworker]
      rfl
  | construct i ho =>
    have hprepared : prepared s = i := by simp [prepared, ho]
    have hflight : s.inFlight i = false := h.not_inFlight (Or.inr (by omega))
    refine ⟨i.isLt, fun slot => ?_⟩
    have hone := h.one slot
    have harmed := armed_prepareAcceptSlot hflight slot
    have hafter : prepared { s.prepareAcceptSlot i with owner := .acceptPool (i + 1) } = i + 1 := rfl
    rw [hafter]
    rw [hprepared] at hone
    have hsame : armed { s.prepareAcceptSlot i with owner := .acceptPool (i + 1) } slot =
        armed (s.prepareAcceptSlot i) slot := rfl
    rw [hsame, harmed]
    show armed s slot + _ + count (prepares slot) s.worker = _
    by_cases heq : slot = i
    · subst heq
      simp at hone ⊢
      omega
    · have hne : (slot : Nat) ≠ i := fun hval => heq (Fin.ext hval)
      simp only [heq, if_false]
      split_ifs at hone ⊢ <;> omega
  | constructed i ho hi =>
    have hprepared : prepared s = m := by
      have hle := h.bound
      have hat : prepared s = i := by simp [prepared, ho]
      omega
    refine ⟨Nat.le_refl m, fun slot => ?_⟩
    have hone := h.one slot
    rw [hprepared] at hone
    exact hone
  | destroy ho =>
    have hprepared : prepared s = m := by simp [prepared, ho]
    refine ⟨Nat.le_refl m, fun slot => ?_⟩
    have hone := h.one slot
    rw [hprepared] at hone
    have harmed : armed (s.post .shutdown) slot = armed s slot := armed_post slot
    show armed (s.post .shutdown) slot + count (prepares slot) s.worker = _
    rw [harmed]
    exact hone
  | join t ho ht =>
    have hprepared : prepared s = m := by simp [prepared, ho]
    refine ⟨Nat.le_refl m, fun slot => ?_⟩
    have hone := h.one slot
    rw [hprepared] at hone
    exact hone
  | joined t ho ht =>
    have hprepared : prepared s = m := by simp [prepared, ho]
    refine ⟨Nat.le_refl m, fun slot => ?_⟩
    have hone := h.one slot
    rw [hprepared] at hone
    exact hone
  | acceptCompletes slot success hslot =>
    refine ⟨h.bound, fun other => ?_⟩
    have hone := h.one other
    show armed _ other + count (prepares other) s.worker = if other < prepared s then 1 else 0
    rw [armed_acceptCompletes hslot]
    exact hone
  | ioCompletes =>
    refine ⟨h.bound, fun slot => ?_⟩
    rw [armed_post]
    exact h.one slot

/-! ## The sockets -/

/-- The worker is in `PostAccept`, or is going to prepare a slot. -/
def preparesAny : WorkerPc m → Bool
  | .postAccept _ | .preparing _ => true
  | _ => false

/-- The sockets of calls of `AcceptEx` that have completed, whether with a connection or not. -/
def used (s : CompletionPort n m) : List Nat := s.handedOver ++ s.lost

/-- A socket is in one slot, has been passed to `PostAccept` once, or has been lost once. -/
structure Sockets (s : CompletionPort n m) : Prop where
  distinct : ∀ a b, 0 < armed s a → 0 < armed s b → s.clientSocket a = s.clientSocket b → a = b
  unused : ∀ a, 0 < armed s a → s.clientSocket a < s.created ∧ s.clientSocket a ∉ used s
  nodup : (used s).Nodup
  bound : ∀ socket ∈ used s, socket < s.created
  all : ∀ socket < s.created, socket ∈ used s ∨ ∃ slot, 0 < armed s slot ∧ s.clientSocket slot = socket
  total : s.created + count preparesAny s.worker = (used s).length + prepared s

theorem sockets_init : Sockets (init : CompletionPort n m) where
  distinct a b ha := by
    rw [armed_init] at ha
    exact absurd ha (Nat.lt_irrefl 0)
  unused a ha := by
    rw [armed_init] at ha
    exact absurd ha (Nat.lt_irrefl 0)
  nodup := List.nodup_nil
  bound := by simp [used, init]
  all socket hsocket := absurd hsocket (Nat.not_lt_zero _)
  total := by
    have hnone : count preparesAny (init : CompletionPort n m).worker = 0 :=
      count_eq_zero.mpr fun _ => rfl
    rw [hnone]
    rfl

/-- A step that concerns no socket. -/
theorem Sockets.of_same (h : Sockets s) (harmed : ∀ slot, armed s' slot = armed s slot)
    (hsocket : s'.clientSocket = s.clientSocket) (hcreated : s'.created = s.created)
    (hused : used s' = used s)
    (htotal : count preparesAny s'.worker + prepared s = count preparesAny s.worker + prepared s') :
    Sockets s' := by
  refine ⟨fun a b ha hb hab => ?_, fun a ha => ?_, ?_, ?_, ?_, ?_⟩
  · rw [hsocket] at hab
    rw [harmed] at ha hb
    exact h.distinct a b ha hb hab
  · rw [harmed] at ha
    rw [hsocket, hcreated, hused]
    exact h.unused a ha
  · rw [hused]
    exact h.nodup
  · rw [hused, hcreated]
    exact h.bound
  · rw [hused, hcreated, hsocket]
    simp only [harmed]
    exact h.all
  · have hbefore := h.total
    rw [hused, hcreated]
    omega

/-- The socket of a slot is used up. -/
theorem Sockets.use (h : Sockets s) (slot : Fin m) (hslot : 0 < armed s slot)
    (hnone : armed s' slot = 0) (harmed : ∀ other, other ≠ slot → armed s' other = armed s other)
    (hsocket : s'.clientSocket = s.clientSocket) (hcreated : s'.created = s.created)
    (hused : (used s').Perm (s.clientSocket slot :: used s)) (hprepared : prepared s' = prepared s)
    (htotal : count preparesAny s'.worker = count preparesAny s.worker + 1) : Sockets s' := by
  obtain ⟨hlt, hnew⟩ := h.unused slot hslot
  have hpos {other : Fin m} (hother : 0 < armed s' other) : 0 < armed s other := by
    have hne : other ≠ slot := by
      rintro rfl
      omega
    rwa [← harmed other hne]
  refine ⟨fun a b ha hb hab => ?_, fun a ha => ?_, ?_, fun socket hmem => ?_, fun socket hlt => ?_, ?_⟩
  · rw [hsocket] at hab
    exact h.distinct a b (hpos ha) (hpos hb) hab
  · obtain ⟨hlta, hnewa⟩ := h.unused a (hpos ha)
    rw [hsocket, hcreated, hused.mem_iff, List.mem_cons, not_or]
    refine ⟨hlta, fun heq => ?_, hnewa⟩
    obtain rfl := h.distinct a slot (hpos ha) hslot heq
    omega
  · rw [hused.nodup_iff]
    exact List.nodup_cons.mpr ⟨hnew, h.nodup⟩
  · rw [hused.mem_iff, List.mem_cons] at hmem
    rw [hcreated]
    obtain rfl | hmem := hmem
    · exact hlt
    · exact h.bound socket hmem
  · rw [hcreated] at hlt
    rw [hused.mem_iff, List.mem_cons, hsocket]
    obtain hmem | ⟨other, hother, rfl⟩ := h.all socket hlt
    · exact Or.inl (Or.inr hmem)
    · by_cases heq : other = slot
      · exact Or.inl (Or.inl (congrArg s.clientSocket heq))
      · exact Or.inr ⟨other, by rwa [harmed other heq], rfl⟩
  · have hbefore := h.total
    have hlength := hused.length_eq
    rw [List.length_cons] at hlength
    omega

/-- A slot gets a new socket. -/
theorem Sockets.prepare (h : Sockets s) (slot : Fin m) (hnew : armed s slot = 0)
    (hslot : 0 < armed s' slot) (harmed : ∀ other, other ≠ slot → armed s' other = armed s other)
    (hsocket : s'.clientSocket = Function.update s.clientSocket slot s.created)
    (hcreated : s'.created = s.created + 1) (hused : used s' = used s)
    (htotal : count preparesAny s'.worker + prepared s + 1 =
      count preparesAny s.worker + prepared s') : Sockets s' := by
  have hself : s'.clientSocket slot = s.created := by rw [hsocket, Function.update_self]
  have hold {other : Fin m} (hne : other ≠ slot) (hother : 0 < armed s' other) :
      0 < armed s other ∧ s'.clientSocket other = s.clientSocket other :=
    ⟨by rwa [← harmed other hne], by rw [hsocket, Function.update_of_ne hne]⟩
  refine ⟨fun a b ha hb hab => ?_, fun a ha => ?_, ?_, fun socket hmem => ?_, fun socket hlt => ?_, ?_⟩
  · by_cases haslot : a = slot
    · by_cases hbslot : b = slot
      · rw [haslot, hbslot]
      · obtain ⟨hb, hsame⟩ := hold hbslot hb
        have hlt := (h.unused b hb).1
        rw [haslot, hself, hsame] at hab
        omega
    · obtain ⟨ha, hsame⟩ := hold haslot ha
      have hlt := (h.unused a ha).1
      by_cases hbslot : b = slot
      · rw [hbslot, hself, hsame] at hab
        omega
      · obtain ⟨hb, hsame'⟩ := hold hbslot hb
        exact h.distinct a b ha hb (by rw [← hsame, ← hsame', hab])
  · rw [hused, hcreated]
    by_cases haslot : a = slot
    · rw [haslot, hself]
      exact ⟨Nat.lt_succ_self _, fun hmem => absurd (h.bound _ hmem) (Nat.lt_irrefl _)⟩
    · obtain ⟨ha, hsame⟩ := hold haslot ha
      obtain ⟨hlt, hnew⟩ := h.unused a ha
      rw [hsame]
      exact ⟨Nat.lt_succ_of_lt hlt, hnew⟩
  · rw [hused]
    exact h.nodup
  · rw [hused] at hmem
    rw [hcreated]
    exact Nat.lt_succ_of_lt (h.bound socket hmem)
  · rw [hcreated, Nat.lt_succ_iff_lt_or_eq] at hlt
    rw [hused]
    obtain hlt | rfl := hlt
    · refine (h.all socket hlt).imp_right fun ⟨other, hother, hsame⟩ => ?_
      have hne : other ≠ slot := by
        rintro rfl
        omega
      exact ⟨other, by rwa [harmed other hne], by rw [hsocket, Function.update_of_ne hne, hsame]⟩
    · exact Or.inr ⟨slot, hslot, hself⟩
  · have hbefore := h.total
    rw [hused, hcreated]
    omega

/-- A slot is armed at most once. -/
theorem Slots.armed_le (h : Slots s) (slot : Fin m) : armed s slot ≤ 1 := by
  have hone := h.one slot
  split_ifs at hone <;> omega

/-- A completion in the hands of a worker is the only place of its slot. -/
theorem armed_of_accepted {t : Fin n} {slot : Fin m} {success : Bool} {p : WorkerPc m} (h : Slots s)
    (ht : s.worker t = .accepted slot success) (hp : ∀ other, handles other p = false) :
    armed s slot = 1 ∧ armed (s.goto t p) slot = 0 ∧
      ∀ other, other ≠ slot → armed (s.goto t p) other = armed s other := by
  have hmine : handles slot (s.worker t) = true := by simp [ht, handles]
  have hone : armed s slot = 1 := by
    have hle := h.armed_le slot
    have hpos := count_pos hmine
    simp only [armed] at hle ⊢
    omega
  have hgoto (other : Fin m) := armed_goto s t p other
  have hself := hgoto slot
  rw [hmine, hone, hp] at hself
  refine ⟨hone, ?_, fun other hne => ?_⟩
  · simp only [Bool.toNat_true, Bool.toNat_false] at hself
    omega
  · have hother := hgoto other
    rw [ht, hp] at hother
    simpa [handles, hne.symm] using hother

theorem preparesAny_goto (s : CompletionPort n m) (t : Fin n) (p : WorkerPc m) :
    count preparesAny (s.goto t p).worker + (preparesAny (s.worker t)).toNat =
      count preparesAny s.worker + (preparesAny p).toNat :=
  count_update preparesAny s.worker t p

theorem sockets_step (h : Sockets s) (hslots : Slots s) (hmoves : Moves s b s') : Sockets s' := by
  cases hmoves with
  | take t packet queue ht hq =>
    have hcount := preparesAny_goto s t (branch packet)
    refine h.of_same (armed_take ht hq) rfl rfl rfl ?_
    have hbranch : preparesAny (branch packet) = false := by cases packet <;> rfl
    rw [ht, hbranch] at hcount
    exact congrArg (· + prepared s) hcount
  | accept t slot ht =>
    obtain ⟨hone, hnone, hsame⟩ := armed_of_accepted (p := .postAccept slot) hslots ht fun _ => rfl
    have hcount := preparesAny_goto s t (.postAccept slot)
    rw [ht] at hcount
    refine h.use slot (by omega) hnone hsame rfl rfl ?_ rfl hcount
    simp only [used, List.append_assoc]
    exact List.perm_middle
  | lose t slot ht =>
    obtain ⟨hone, hnone, hsame⟩ := armed_of_accepted (p := .preparing slot) hslots ht fun _ => rfl
    have hcount := preparesAny_goto s t (.preparing slot)
    rw [ht] at hcount
    refine h.use slot (by omega) hnone hsame rfl rfl ?_ rfl hcount
    simp only [used]
    rw [← List.append_assoc]
    exact List.perm_append_singleton _ _
  | postAccept t slot ht =>
    have hcount := preparesAny_goto s t (.preparing slot)
    rw [ht] at hcount
    refine h.of_same (fun other => ?_) rfl rfl rfl
      (congrArg (· + prepared s) (Nat.add_right_cancel hcount))
    have hother := armed_goto s t (.preparing slot) other
    rw [ht] at hother
    exact hother
  | prepare t slot ht =>
    have hmine : prepares slot (s.worker t) = true := by simp [ht, prepares]
    have hpos := count_pos hmine
    have hflight := hslots.not_inFlight (Or.inl (Nat.ne_of_gt hpos))
    have hone := hslots.one slot
    have hnew : armed s slot = 0 := by
      split_ifs at hone <;> omega
    have hworker : (s.prepareAcceptSlot slot).worker t = .preparing slot := ht
    have harmed (other : Fin m) :
        armed ((s.prepareAcceptSlot slot).goto t .waiting) other =
          armed s other + if other = slot then 1 else 0 := by
      have hgoto := armed_goto (s.prepareAcceptSlot slot) t .waiting other
      rw [armed_prepareAcceptSlot hflight, hworker] at hgoto
      exact hgoto
    have hcount := preparesAny_goto (s.prepareAcceptSlot slot) t .waiting
    rw [hworker] at hcount
    refine h.prepare slot hnew ?_ (fun other hne => ?_) rfl rfl rfl ?_
    · rw [harmed, if_pos rfl]
      exact Nat.succ_pos _
    · rw [harmed, if_neg hne, Nat.add_zero]
    · have hsame : prepared ((s.prepareAcceptSlot slot).goto t .waiting) = prepared s := rfl
      have hbefore : count preparesAny (s.prepareAcceptSlot slot).worker =
          count preparesAny s.worker := rfl
      simp only [preparesAny, Bool.toNat_true, Bool.toNat_false] at hcount
      omega
  | handle t ht =>
    have harmed (slot : Fin m) := armed_goto s t .waiting slot
    have hcount := preparesAny_goto s t .waiting
    rw [ht] at hcount
    refine h.of_same (fun slot => ?_) rfl rfl rfl (congrArg (· + prepared s) hcount)
    have hslot := harmed slot
    rw [ht] at hslot
    exact hslot
  | leave t ht =>
    have hworker : (s.post .shutdown).worker t = .leaving := ht
    have hcount := preparesAny_goto (s.post .shutdown) t .returned
    rw [hworker] at hcount
    refine h.of_same (fun slot => ?_) rfl rfl rfl (congrArg (· + prepared s) hcount)
    have hslot := armed_goto (s.post .shutdown) t .returned slot
    rw [hworker, armed_post] at hslot
    exact hslot
  | construct i ho =>
    have hprepared : prepared s = i := by simp [prepared, ho]
    have hflight : s.inFlight i = false := hslots.not_inFlight (Or.inr (by omega))
    have harmed (slot : Fin m) :
        armed { s.prepareAcceptSlot i with owner := .acceptPool (i + 1) } slot =
          armed s slot + if slot = i then 1 else 0 := armed_prepareAcceptSlot hflight slot
    have hone := hslots.one i
    rw [if_neg (by omega)] at hone
    refine h.prepare i (by omega) ?_ (fun other hne => ?_) rfl rfl rfl ?_
    · rw [harmed, if_pos rfl]
      exact Nat.succ_pos _
    · rw [harmed, if_neg hne, Nat.add_zero]
    · rw [hprepared]
      exact Nat.add_assoc ..
  | constructed i ho hi =>
    have hprepared : prepared s = m := by
      have hle := hslots.bound
      have hat : prepared s = i := by simp [prepared, ho]
      omega
    exact h.of_same (fun _ => rfl) rfl rfl rfl (congrArg (count preparesAny s.worker + ·)
      hprepared)
  | destroy ho =>
    have hprepared : prepared s = m := by simp [prepared, ho]
    have harmed (slot : Fin m) : armed (s.post .shutdown) slot = armed s slot := armed_post slot
    exact h.of_same harmed rfl rfl rfl
      (congrArg (count preparesAny s.worker + ·) hprepared)
  | join t ho ht =>
    have hprepared : prepared s = m := by simp [prepared, ho]
    exact h.of_same (fun _ => rfl) rfl rfl rfl (congrArg (count preparesAny s.worker + ·)
      hprepared)
  | joined t ho ht =>
    have hprepared : prepared s = m := by simp [prepared, ho]
    exact h.of_same (fun _ => rfl) rfl rfl rfl (congrArg (count preparesAny s.worker + ·)
      hprepared)
  | acceptCompletes slot success hslot =>
    exact h.of_same (armed_acceptCompletes hslot success) rfl rfl rfl rfl
  | ioCompletes => exact h.of_same armed_post rfl rfl rfl rfl

/-! ## The end of the workers -/

/-- The worker has taken the packet that ends it. -/
def leaves : WorkerPc m → Bool
  | .leaving => true
  | _ => false

/-- How many packets the destructor has posted. -/
def posted (s : CompletionPort n m) : Nat :=
  match s.owner with
  | .joining _ | .joined => 1
  | _ => 0

/-- The workers that have been joined have returned. -/
def Joined (worker : Fin n → WorkerPc m) : OwnerPc → Prop
  | .joining k => ∀ t : Fin n, t < k → worker t = .returned
  | .joined => ∀ t, worker t = .returned
  | _ => ∀ t, worker t ≠ .returned

/-- There is one packet that ends a worker once the destructor has posted it, and none before. -/
structure Ending (s : CompletionPort n m) : Prop where
  one : s.queue.count .shutdown + count leaves s.worker = posted s
  joined : Joined s.worker s.owner

theorem ending_init : Ending (init : CompletionPort n m) where
  one := by
    have hnone : count leaves (init : CompletionPort n m).worker = 0 := count_eq_zero.mpr fun _ => rfl
    rw [hnone]
    rfl
  joined t := nofun

theorem leaves_goto (s : CompletionPort n m) (t : Fin n) (p : WorkerPc m) :
    count leaves (s.goto t p).worker + (leaves (s.worker t)).toNat =
      count leaves s.worker + (leaves p).toNat :=
  count_update leaves s.worker t p

theorem count_post (s : CompletionPort n m) (packet : Packet m) :
    (s.post packet).queue.count .shutdown =
      s.queue.count .shutdown + if packet = .shutdown then 1 else 0 := by
  simp [post, List.count_append, List.count_singleton]

/-- A worker that has not returned, and does not, goes on. -/
theorem Joined.update {worker : Fin n → WorkerPc m} {owner : OwnerPc} {t : Fin n} {p : WorkerPc m}
    (h : Joined worker owner) (ht : worker t ≠ .returned) (hp : p ≠ .returned) :
    Joined (Function.update worker t p) owner := by
  have hupdate (u : Fin n) (hu : worker u = .returned) : Function.update worker t p u = .returned := by
    have hne : u ≠ t := fun heq => ht (heq ▸ hu)
    rw [Function.update_of_ne hne, hu]
  cases owner with
  | joining k => exact fun u hu => hupdate u (h u hu)
  | joined => exact absurd (h t) ht
  | acceptPool i | running =>
    exact forall_update (A := fun _ (q : WorkerPc m) => q ≠ .returned) (fun u _ => h u) hp

/-- A worker that takes part in the end returns. -/
theorem Joined.return {worker : Fin n → WorkerPc m} {t : Fin n} (h : Joined worker s.owner)
    (hposted : posted s = 1) : Joined (Function.update worker t .returned) s.owner := by
  have hupdate (u : Fin n) (hu : worker u = .returned) :
      Function.update worker t .returned u = .returned := by
    rcases eq_or_ne u t with rfl | hne
    · exact Function.update_self ..
    · rw [Function.update_of_ne hne, hu]
  unfold posted at hposted
  cases ho : s.owner with
  | joining k =>
    rw [ho] at h
    exact fun u hu => hupdate u (h u hu)
  | joined =>
    rw [ho] at h
    exact fun u => hupdate u (h u)
  | acceptPool i | running => simp [ho] at hposted

theorem ending_step (h : Ending s) (hmoves : Moves s b s') : Ending s' := by
  obtain ⟨hone, hjoined⟩ := h
  cases hmoves with
  | take t packet queue ht hq =>
    have hgoto := leaves_goto s t (branch packet)
    rw [ht] at hgoto
    refine ⟨?_, hjoined.update (by rw [ht]; nofun) (by cases packet <;> nofun)⟩
    have hleaves : (leaves (branch packet)).toNat = if packet = .shutdown then 1 else 0 := by
      cases packet <;> rfl
    have hcount : s.queue.count .shutdown =
        queue.count .shutdown + if packet = .shutdown then 1 else 0 := by
      rw [hq, List.count_cons]
      simp
    have hwaiting : (leaves (WorkerPc.waiting : WorkerPc m)).toNat = 0 := rfl
    show queue.count .shutdown + count leaves (s.goto t (branch packet)).worker = posted s
    omega
  | accept t slot ht =>
    have hgoto := leaves_goto s t (.postAccept slot)
    rw [ht] at hgoto
    have hsame : count leaves (s.goto t (.postAccept slot)).worker = count leaves s.worker := hgoto
    refine ⟨?_, hjoined.update (by rw [ht]; nofun) nofun⟩
    show s.queue.count .shutdown + count leaves (s.goto t (.postAccept slot)).worker = posted s
    rw [hsame, hone]
  | postAccept t slot ht | lose t slot ht =>
    have hgoto := leaves_goto s t (.preparing slot)
    rw [ht] at hgoto
    have hsame : count leaves (s.goto t (.preparing slot)).worker = count leaves s.worker := hgoto
    refine ⟨?_, hjoined.update (by rw [ht]; nofun) nofun⟩
    show s.queue.count .shutdown + count leaves (s.goto t (.preparing slot)).worker = posted s
    rw [hsame, hone]
  | prepare t slot ht =>
    have hgoto := leaves_goto s t .waiting
    rw [ht] at hgoto
    have hsame : count leaves (s.goto t .waiting).worker = count leaves s.worker := hgoto
    refine ⟨?_, hjoined.update (by rw [ht]; nofun) nofun⟩
    show s.queue.count .shutdown + count leaves (s.goto t .waiting).worker = posted s
    rw [hsame, hone]
  | handle t ht =>
    have hgoto := leaves_goto s t .waiting
    rw [ht] at hgoto
    have hsame : count leaves (s.goto t .waiting).worker = count leaves s.worker := hgoto
    refine ⟨?_, hjoined.update (by rw [ht]; nofun) nofun⟩
    show s.queue.count .shutdown + count leaves (s.goto t .waiting).worker = posted s
    rw [hsame, hone]
  | leave t ht =>
    have hmine : leaves (s.worker t) = true := by
      rw [ht]
      rfl
    have hpos := count_pos hmine
    have hposted : posted s = 1 := by
      have hle : posted s ≤ 1 := by
        unfold posted
        split <;> omega
      omega
    have hgoto := leaves_goto s t .returned
    rw [hmine] at hgoto
    have hcount := count_post s .shutdown
    refine ⟨?_, hjoined.return hposted⟩
    show (s.post .shutdown).queue.count .shutdown + count leaves (s.goto t .returned).worker = posted s
    simp only [leaves, Bool.toNat_true, Bool.toNat_false, if_true] at hgoto hcount
    omega
  | construct i ho =>
    simp only [posted, Joined, ho] at hone hjoined
    exact ⟨hone, hjoined⟩
  | constructed i ho hi =>
    simp only [posted, Joined, ho] at hone hjoined
    exact ⟨hone, hjoined⟩
  | destroy ho =>
    simp only [posted, Joined, ho] at hone hjoined
    refine ⟨?_, fun t ht => absurd ht (Nat.not_lt_zero _)⟩
    have hcount := count_post s .shutdown
    show (s.post .shutdown).queue.count .shutdown + count leaves s.worker = 1
    rw [if_pos rfl] at hcount
    omega
  | join t ho ht =>
    simp only [posted, Joined, ho] at hone hjoined
    refine ⟨hone, fun u hu => ?_⟩
    rcases eq_or_ne u t with rfl | hne
    · exact ht
    · refine hjoined u ?_
      have hval : (u : Nat) ≠ t := fun heq => hne (Fin.ext heq)
      omega
  | joined t ho ht =>
    simp only [posted, Joined, ho] at hone hjoined
    exact ⟨hone, fun u => hjoined u (by omega)⟩
  | acceptCompletes slot success hslot =>
    refine ⟨?_, hjoined⟩
    have hcount := count_post s (.accept slot success)
    rw [if_neg nofun] at hcount
    show (s.post (.accept slot success)).queue.count .shutdown + count leaves s.worker = posted s
    rw [hcount, Nat.add_zero, hone]
  | ioCompletes =>
    refine ⟨?_, hjoined⟩
    have hcount := count_post s .io
    rw [if_neg nofun] at hcount
    show (s.post .io).queue.count .shutdown + count leaves s.worker = posted s
    rw [hcount, Nat.add_zero, hone]

/-! ## Termination -/

/-- How many steps of the threads a packet causes at most. -/
def weight : Packet m → Nat
  | .accept _ _ => 5
  | .io => 2
  | .shutdown => 1

def rank : WorkerPc m → Nat
  | .waiting => 5
  | .accepted _ _ => 9
  | .postAccept _ => 8
  | .preparing _ => 7
  | .handling => 6
  | .leaving => 4
  | .returned => 0

def ownerRank (n m : Nat) : OwnerPc → Nat
  | .acceptPool i => m - i + n + 4
  | .running => n + 3
  | .joining t => n - t + 1
  | .joined => 0

/-- A bound on the steps that the threads take before nothing is left to do. -/
def stepsLeft (s : CompletionPort n m) : Nat :=
  (s.queue.map weight).sum + ∑ t, rank (s.worker t) + ownerRank n m s.owner

theorem rank_goto (s : CompletionPort n m) {t : Fin n} {q : WorkerPc m} (ht : s.worker t = q)
    (p : WorkerPc m) :
    ∑ u, rank ((s.goto t p).worker u) + rank q = ∑ u, rank (s.worker u) + rank p :=
  ht ▸ sum_update rank s.worker t p

theorem weight_post (s : CompletionPort n m) (packet : Packet m) :
    ((s.post packet).queue.map weight).sum = (s.queue.map weight).sum + weight packet := by
  simp [post]

/-- A step of a thread brings the end closer; a completion puts it off by five steps at most. -/
theorem stepsLeft_step (hmoves : Moves s b s') :
    if b then stepsLeft s' < stepsLeft s else stepsLeft s' ≤ stepsLeft s + 5 := by
  cases hmoves with
  | take t packet queue ht hq =>
    have hrank := rank_goto s ht (branch packet)
    have hpacket : rank (branch packet) < rank (WorkerPc.waiting : WorkerPc m) + weight packet := by
      cases packet <;> simp [branch, rank, weight]
    show (queue.map weight).sum + ∑ u, rank ((s.goto t (branch packet)).worker u) +
      ownerRank n m s.owner < stepsLeft s
    rw [stepsLeft, hq, List.map_cons, List.sum_cons]
    omega
  | accept t slot ht =>
    have hrank : _ + 9 = _ + 8 := rank_goto s ht (.postAccept slot)
    show (s.queue.map weight).sum + ∑ u, rank ((s.goto t (.postAccept slot)).worker u) +
      ownerRank n m s.owner < stepsLeft s
    rw [stepsLeft]
    omega
  | postAccept t slot ht =>
    have hrank : _ + 8 = _ + 7 := rank_goto s ht (.preparing slot)
    show (s.queue.map weight).sum + ∑ u, rank ((s.goto t (.preparing slot)).worker u) +
      ownerRank n m s.owner < stepsLeft s
    rw [stepsLeft]
    omega
  | lose t slot ht =>
    have hrank : _ + 9 = _ + 7 := rank_goto s ht (.preparing slot)
    show (s.queue.map weight).sum + ∑ u, rank ((s.goto t (.preparing slot)).worker u) +
      ownerRank n m s.owner < stepsLeft s
    rw [stepsLeft]
    omega
  | prepare t slot ht =>
    have hrank : _ + 7 = _ + 5 := rank_goto s ht .waiting
    show (s.queue.map weight).sum + ∑ u, rank ((s.goto t .waiting).worker u) +
      ownerRank n m s.owner < stepsLeft s
    rw [stepsLeft]
    omega
  | handle t ht =>
    have hrank : _ + 6 = _ + 5 := rank_goto s ht .waiting
    show (s.queue.map weight).sum + ∑ u, rank ((s.goto t .waiting).worker u) +
      ownerRank n m s.owner < stepsLeft s
    rw [stepsLeft]
    omega
  | leave t ht =>
    have hrank : _ + 4 = _ + 0 := rank_goto s ht .returned
    have hweight : _ = _ + 1 := weight_post s .shutdown
    show ((s.post .shutdown).queue.map weight).sum + ∑ u, rank ((s.goto t .returned).worker u) +
      ownerRank n m s.owner < stepsLeft s
    rw [stepsLeft]
    omega
  | construct i ho =>
    show (s.queue.map weight).sum + ∑ u, rank (s.worker u) + ownerRank n m (.acceptPool (i + 1)) <
      stepsLeft s
    rw [stepsLeft, ho]
    simp only [ownerRank]
    omega
  | constructed i ho hi =>
    show (s.queue.map weight).sum + ∑ u, rank (s.worker u) + ownerRank n m .running < stepsLeft s
    rw [stepsLeft, ho]
    simp only [ownerRank]
    omega
  | destroy ho =>
    have hweight : _ = _ + 1 := weight_post s .shutdown
    show ((s.post .shutdown).queue.map weight).sum + ∑ u, rank (s.worker u) +
      ownerRank n m (.joining 0) < stepsLeft s
    rw [stepsLeft, ho]
    simp only [ownerRank]
    omega
  | join t ho ht =>
    show (s.queue.map weight).sum + ∑ u, rank (s.worker u) + ownerRank n m (.joining (t + 1)) <
      stepsLeft s
    rw [stepsLeft, ho]
    simp only [ownerRank]
    omega
  | joined t ho ht =>
    show (s.queue.map weight).sum + ∑ u, rank (s.worker u) + ownerRank n m .joined < stepsLeft s
    rw [stepsLeft, ho]
    simp only [ownerRank]
    omega
  | acceptCompletes slot success hslot =>
    have hweight : _ = _ + 5 := weight_post s (.accept slot success)
    show ((s.post (.accept slot success)).queue.map weight).sum + ∑ u, rank (s.worker u) +
      ownerRank n m s.owner ≤ stepsLeft s + 5
    rw [stepsLeft]
    omega
  | ioCompletes =>
    have hweight : _ = _ + 2 := weight_post s .io
    show ((s.post .io).queue.map weight).sum + ∑ u, rank (s.worker u) + ownerRank n m s.owner ≤
      stepsLeft s + 5
    rw [stepsLeft]
    omega

/-! ## The theorems -/

theorem slots_of_reachable (hs : Reachable step (init : CompletionPort n m) s) : Slots s :=
  hs.invariant (fun _ _ _ h hstep => slots_step h (moves_of_step hstep)) slots_init

/-- **A slot is at one place, and so is a socket.** In every state that the workers, the constructor,
the destructor and the completions lead to: a slot that has been prepared is in flight, or its
completion is queued, or one worker has it, and never two of these; a slot that has not been prepared is
nowhere. No socket is passed to `PostAccept` twice or after it has been lost; and every socket that has
been created has been passed to `PostAccept` or lost, and then is in no slot that waits for a connection
or has one to pass on, or else it is in exactly one such slot. -/
theorem slots_conserved (hs : Reachable step (init : CompletionPort n m) s) :
    (∀ slot : Fin m, (s.inFlight slot).toNat + s.queue.countP (isAccept slot) +
        count (handles slot) s.worker + count (prepares slot) s.worker =
      if slot < prepared s then 1 else 0) ∧
    (s.handedOver ++ s.lost).Nodup ∧
    (∀ socket < s.created,
      (socket ∈ s.handedOver ++ s.lost ∧ ∀ slot, 0 < armed s slot → s.clientSocket slot ≠ socket) ∨
      (socket ∉ s.handedOver ++ s.lost ∧ ∃! slot, 0 < armed s slot ∧ s.clientSocket slot = socket)) ∧
    (∀ slot, 0 < armed s slot → s.clientSocket slot < s.created) ∧
    (∀ socket ∈ s.handedOver ++ s.lost, socket < s.created) ∧
    s.created + count preparesAny s.worker = s.handedOver.length + s.lost.length + prepared s := by
  have hslots := slots_of_reachable hs
  obtain ⟨-, hsockets⟩ : Slots s ∧ Sockets s := hs.invariant
    (P := fun s => Slots s ∧ Sockets s) (fun _ _ _ h hstep =>
      ⟨slots_step h.1 (moves_of_step hstep), sockets_step h.2 h.1 (moves_of_step hstep)⟩)
    ⟨slots_init, sockets_init⟩
  refine ⟨hslots.one, hsockets.nodup, fun socket hlt => ?_,
    fun slot hslot => (hsockets.unused slot hslot).1, hsockets.bound, ?_⟩
  · by_cases hmem : socket ∈ s.handedOver ++ s.lost
    · refine Or.inl ⟨hmem, fun slot hslot heq => (hsockets.unused slot hslot).2 ?_⟩
      rw [heq]
      exact hmem
    · obtain hused | ⟨slot, hslot, rfl⟩ := hsockets.all socket hlt
      · exact absurd hused hmem
      · refine Or.inr ⟨hmem, slot, ⟨hslot, rfl⟩, fun other hother => ?_⟩
        exact hsockets.distinct other slot hother.1 hslot hother.2
  · have htotal := hsockets.total
    rwa [used, List.length_append] at htotal

/-- In the destructor, some thread can go on by itself, unless the worker that the destructor waits for
is in a call that may block. -/
theorem Ending.exists_step (h : Ending s) (hending : ShuttingDown s) (howner : s.owner ≠ .joined) :
    (∃ act s', Action.outsideCalls act = true ∧ step s act = some s') ∨
      ∃ k : Fin n, s.owner = .joining k ∧ (s.worker k).inCall = true := by
  have hworker (t : Fin n) (hreturned : s.worker t ≠ .returned) (hcall : (s.worker t).inCall = false)
      (hpacket : s.worker t = .waiting → s.queue ≠ []) : ∃ s', step s (.worker t) = some s' := by
    simp only [step, stepWorker]
    cases ht : s.worker t with
    | returned => exact absurd ht hreturned
    | waiting =>
      obtain ⟨packet, queue, hq⟩ := List.exists_cons_of_ne_nil (hpacket ht)
      simp [hq]
    | accepted slot success => cases success <;> simp
    | postAccept slot | handling => simp [ht, WorkerPc.inCall] at hcall
    | _ => simp
  cases ho : s.owner with
  | acceptPool i | running => simp [ShuttingDown, ho] at hending
  | joined => exact absurd ho howner
  | joining k =>
    by_cases hk : k < n
    · by_cases hreturned : s.worker ⟨k, hk⟩ = .returned
      · exact Or.inl ⟨.owner, _, rfl,
          by simp only [step, stepOwner, ho, dif_pos hk, if_pos hreturned]; rfl⟩
      · cases hcall : (s.worker ⟨k, hk⟩).inCall with
        | true => exact Or.inr ⟨⟨k, hk⟩, rfl, hcall⟩
        | false =>
          left
          -- Either worker `k` can take the packet, or another one is about to post it again.
          have hone := h.one
          have hposted : posted s = 1 := by simp [posted, ho]
          rw [hposted] at hone
          by_cases hleaves : ∃ t, leaves (s.worker t) = true
          · obtain ⟨t, ht⟩ := hleaves
            have hleaving : s.worker t = .leaving := by
              cases hpc : s.worker t <;> simp_all [leaves]
            obtain ⟨s', hs'⟩ := hworker t (by rw [hleaving]; nofun) (by rw [hleaving]; rfl)
              (by rw [hleaving]; nofun)
            exact ⟨.worker t, s', rfl, hs'⟩
          · have hnone : count leaves s.worker = 0 := count_eq_zero.mpr fun t => by
              simpa using fun ht => hleaves ⟨t, ht⟩
            have hmem : Packet.shutdown ∈ s.queue := List.count_pos_iff.mp (by omega)
            obtain ⟨s', hs'⟩ :=
              hworker ⟨k, hk⟩ hreturned hcall fun _ => List.ne_nil_of_mem hmem
            exact ⟨.worker ⟨k, hk⟩, s', rfl, hs'⟩
    · exact Or.inl ⟨.owner, _, rfl, by simp only [step, stepOwner, ho, dif_neg hk]; rfl⟩

/-- **The workers end, if they are let out of their calls.** From every state that can be reached, the
threads take at most `stepsLeft` steps, and five more for each completion that comes; after the
destructor has posted its packet, some thread can take a step by itself until all workers have been
joined, unless the worker that is to be joined next is in `PostAccept` or with a completion of a session,
where it may wait for a client or for `sessionsMutex_`. Where all have been joined, all of them have
returned and the packet is still in the queue, and every slot of `AcceptPool`, which is about to be
freed, is in flight or its completion is queued. -/
theorem workers_end (hs : Reachable step (init : CompletionPort n m) s) :
    (∀ acts t, run step s acts = some t →
      acts.countP Action.ofThread ≤ stepsLeft s + 5 * acts.countP fun act => !act.ofThread) ∧
    (ShuttingDown s → s.owner ≠ .joined →
      (∃ act s', Action.outsideCalls act = true ∧ step s act = some s') ∨
        ∃ k : Fin n, s.owner = .joining k ∧ (s.worker k).inCall = true) ∧
    (s.owner = .joined → (∀ t, s.worker t = .returned) ∧ s.queue.count .shutdown = 1 ∧
      ∀ slot, (s.inFlight slot).toNat + s.queue.countP (isAccept slot) = 1) := by
  have hending : Ending s :=
    hs.invariant (fun _ _ _ h hstep => ending_step h (moves_of_step hstep)) ending_init
  refine ⟨fun acts t hrun => ?_, hending.exists_step, fun howner => ?_⟩
  · have hle : acts.countP Action.ofThread + stepsLeft t ≤
        stepsLeft s + 5 * acts.countP fun act => !act.ofThread :=
      countP_le_of_decreasing (P := fun _ => True) (A := fun _ => True)
      (fun _ _ _ h _ _ => h)
      (fun s act s' _ _ hp hstep => by
        have hless := stepsLeft_step (moves_of_step hstep)
        rwa [hp, if_pos rfl] at hless)
      (fun s act s' _ _ hp hstep => by
        have hmore := stepsLeft_step (moves_of_step hstep)
        rwa [hp, if_neg Bool.false_ne_true] at hmore)
      trivial (fun _ _ => trivial) hrun
    omega
  · obtain ⟨hone, hjoined⟩ := hending
    simp only [posted, Joined, howner] at hone hjoined
    have hnone {f : WorkerPc m → Bool} (hf : f .returned = false) : count f s.worker = 0 :=
      count_eq_zero.mpr fun t => by rw [hjoined t, hf]
    rw [hnone rfl] at hone
    refine ⟨hjoined, hone, fun slot => ?_⟩
    have hslot := (slots_of_reachable hs).one slot
    have hprepared : prepared s = m := by simp [prepared, howner]
    rw [hprepared, if_pos slot.isLt, hnone rfl] at hslot
    simp only [armed] at hslot
    rw [hnone rfl] at hslot
    exact hslot

/-- A slot accepts a connection while the other one waits, then the server is destroyed. The first worker
is still in `PostAccept` when the second one ends. -/
def acceptAndEnd : List (Action 2 2) :=
  let fst := ⟨0, Nat.two_pos⟩
  let snd := ⟨1, Nat.one_lt_two⟩
  [.owner, .owner, .owner, .acceptCompletes fst true, .worker fst, .worker fst, .owner, .worker snd,
    .worker snd, .callReturns fst, .worker fst, .worker fst, .worker fst, .owner, .owner, .owner]

theorem slots_conserved_acceptAndEnd :
    ∃ s, run step (init : CompletionPort 2 2) acceptAndEnd = some s ∧ s.handedOver = [0] ∧
      s.created = 3 ∧ ∃! slot, 0 < armed s slot ∧ s.clientSocket slot = 2 := by
  obtain ⟨s, hrun, hhanded, hlost, hcreated⟩ : ∃ s, run step (init : CompletionPort 2 2) acceptAndEnd =
      some s ∧ s.handedOver = [0] ∧ s.lost = [] ∧ s.created = 3 := ⟨_, rfl, rfl, rfl, rfl⟩
  obtain ⟨-, -, hall, -⟩ := slots_conserved
    (show Reachable step (init : CompletionPort 2 2) s from ⟨acceptAndEnd, hrun⟩)
  obtain ⟨hmem, -⟩ | ⟨-, hone⟩ := hall 2 (by rw [hcreated]; decide)
  · rw [hhanded, hlost] at hmem
    exact absurd hmem (by decide)
  · exact ⟨s, hrun, hhanded, hcreated, hone⟩

theorem workers_end_acceptAndEnd :
    ∃ s, run step (init : CompletionPort 2 2) acceptAndEnd = some s ∧
      ∀ slot, (s.inFlight slot).toNat + s.queue.countP (isAccept slot) = 1 :=
  ⟨_, rfl, ((workers_end
    (show Reachable step (init : CompletionPort 2 2) _ from ⟨acceptAndEnd, rfl⟩)).2.2 rfl).2.2⟩

end RatkiniaServer.CompletionPort
