import RatkiniaServer.MainServer
import Mathlib.Algebra.Group.Nat.Defs

/-!
# Proofs: every actor runs exactly once per round

The invariant ties the shared counters to the numbers of workers at each point: the index that the
workers drew from is `min drawn actorCount` plus the workers that drew past the end, the countdown is
the number of workers that have yet to decrement it, and the flag for the main thread is set, or about
to be, exactly where that number is zero. It needs `actorCount + n ≤ 2 ^ 32`: each worker draws one
index past the end, and the counter of the indices has 32 bits.
-/

namespace RatkiniaServer.MainServer

open Threads Transition

/-! ## What a worker has left to do in the round of a version -/

/-- The worker has not joined the round of version `v`. -/
def due (v : UInt32) (w : Worker) : Bool :=
  match w.pc with
  | .waiting => w.desiredVersion = v
  | .leaving => w.desiredVersion ≠ v
  | _ => false

/-- The worker has not decremented `workingThreadCount_` in the round of version `v`. -/
def pending (v : UInt32) (w : Worker) : Bool :=
  match w.pc with
  | .waiting => w.desiredVersion = v
  | .leaving => w.desiredVersion ≠ v
  | .fetching | .fetched _ | .running _ => true
  | .waking => false

/-- The worker has not drawn an index past the last actor in the round of version `v`. -/
def drawing (actorCount : Nat) (v : UInt32) (w : Worker) : Bool :=
  match w.pc with
  | .waiting => w.desiredVersion = v
  | .leaving => w.desiredVersion ≠ v
  | .fetching | .running _ => true
  | .fetched workIndex => workIndex.toNat < actorCount
  | .waking => false

/-- The worker drew the index `i` and has not looked it up. -/
def holds (i : Nat) (w : Worker) : Bool :=
  match w.pc with
  | .fetched workIndex => workIndex.toNat = i
  | _ => false

/-- The worker is inside `Run` of actor `i`. -/
def runs (i : Nat) (w : Worker) : Bool :=
  match w.pc with
  | .running actor => actor = i
  | _ => false

/-- The worker is about to set `mainThreadShouldWakeup_`. -/
def wakes (w : Worker) : Bool :=
  match w.pc with
  | .waking => true
  | _ => false

/-- A worker takes part in the round of version `v`, or is yet to come from the round before it or
already waiting for the one after it. -/
def InRound (v : UInt32) (w : Worker) : Prop :=
  match w.pc with
  | .waiting => w.desiredVersion = v ∨ w.desiredVersion = v + 1
  | .leaving => w.desiredVersion = v ∨ w.desiredVersion + 1 = v
  | _ => w.desiredVersion = v

/-- A worker is done with the round of version `v`. -/
def Rested (v : UInt32) (w : Worker) : Prop :=
  match w.pc with
  | .waiting => w.desiredVersion = v + 1
  | .leaving => w.desiredVersion = v
  | _ => False

theorem pending_of_drawing {actorCount : Nat} {v : UInt32} {w : Worker}
    (h : drawing actorCount v w = true) : pending v w = true := by
  obtain ⟨pc, d⟩ := w
  cases pc <;> simp_all [drawing, pending]

theorem pending_of_holds {i : Nat} {v : UInt32} {w : Worker} (h : holds i w = true) :
    pending v w = true := by
  obtain ⟨pc, d⟩ := w
  cases pc <;> simp_all [holds, pending]

theorem pending_of_runs {i : Nat} {v : UInt32} {w : Worker} (h : runs i w = true) :
    pending v w = true := by
  obtain ⟨pc, d⟩ := w
  cases pc <;> simp_all [runs, pending]

theorem pending_of_due {v : UInt32} {w : Worker} (h : due v w = true) : pending v w = true := by
  obtain ⟨pc, d⟩ := w
  cases pc <;> simp_all [due, pending]

theorem rested_of_inRound {v : UInt32} {w : Worker} (h : InRound v w) (hp : pending v w = false)
    (hw : wakes w = false) : Rested v w := by
  obtain ⟨pc, d⟩ := w
  cases pc <;> simp_all [InRound, pending, wakes, Rested]

theorem add_one_ne (v : UInt32) : v + 1 ≠ v := by
  intro h
  have := congrArg UInt32.toBitVec h
  simp at this

/-- A worker that is done with a round has yet to join the next one. -/
theorem Rested.next {v : UInt32} {w : Worker} (h : Rested v w) :
    InRound (v + 1) w ∧ due (v + 1) w = true ∧ wakes w = false := by
  obtain ⟨pc, d⟩ := w
  have hne := add_one_ne v
  cases pc with
  | waiting =>
    obtain rfl : d = v + 1 := h
    exact ⟨Or.inl rfl, by simp [due], rfl⟩
  | leaving =>
    obtain rfl : d = v := h
    exact ⟨Or.inr rfl, by simp [due, hne.symm], rfl⟩
  | _ => exact h.elim

/-! ## The invariant of a round -/

section Round

variable {actorCount n : Nat} {v index countdown : UInt32} {flag : Bool} {worker : Fin n → Worker}
  {t : Fin n} {w : Worker} {r r' : List Event} {f : Nat}

/-- `f` indices were drawn, and the calls of `Run` are those of the actors at these indices. -/
structure Draws (actorCount : Nat) (v index : UInt32) (worker : Fin n → Worker) (r : List Event)
    (f : Nat) : Prop where
  index : index = UInt32.ofNat f
  drawn : f + count (drawing actorCount v) worker = min f actorCount + n
  started : ∀ i < actorCount, count (holds i) worker + r.count (.started i) = if i < f then 1 else 0
  past : ∀ i, actorCount ≤ i → r.count (.started i) = 0
  finished : ∀ i, count (runs i) worker + r.count (.finished i) = r.count (.started i)

/-- The countdown is the number of workers that have yet to decrement it, and the main thread is woken
up, or about to be, where there is none. -/
structure Countdown (v countdown : UInt32) (flag : Bool) (worker : Fin n → Worker) (r : List Event) :
    Prop where
  countdown : countdown.toNat = count (pending v) worker
  wakeup : count wakes worker + flag.toNat = if count (pending v) worker = 0 then 1 else 0
  decremented : ∀ t : Fin n,
    r.count (.decremented t) = if pending v (worker t) = true then 0 else 1

/-- The workers that joined are those that are not due. -/
structure Joins (v : UInt32) (worker : Fin n → Worker) (r : List Event) : Prop where
  inRound : ∀ t, InRound v (worker t)
  joined : ∀ t : Fin n, r.count (.joined t) = if due v (worker t) = true then 0 else 1
  left : Event.left ∉ r

/-! ### Steps that do not concern a part of it -/

theorem Draws.move (h : Draws actorCount v index worker r f)
    (hdrawing : drawing actorCount v w = drawing actorCount v (worker t))
    (hholds : ∀ i < actorCount, holds i w = holds i (worker t))
    (hruns : ∀ i, runs i w = runs i (worker t))
    (hstarted : ∀ i, r'.count (.started i) = r.count (.started i))
    (hfinished : ∀ i, r'.count (.finished i) = r.count (.finished i)) :
    Draws actorCount v index (Function.update worker t w) r' f where
  index := h.index
  drawn := by rw [count_move hdrawing]; exact h.drawn
  started i hi := by rw [count_move (hholds i hi), hstarted]; exact h.started i hi
  past i hi := by rw [hstarted]; exact h.past i hi
  finished i := by rw [count_move (hruns i), hstarted, hfinished]; exact h.finished i

theorem Countdown.move (h : Countdown v countdown flag worker r)
    (hpending : pending v w = pending v (worker t)) (hwakes : wakes w = wakes (worker t))
    (hcount : ∀ u : Fin n, r'.count (.decremented u) = r.count (.decremented u)) :
    Countdown v countdown flag (Function.update worker t w) r' where
  countdown := by rw [count_move hpending]; exact h.countdown
  wakeup := by rw [count_move hpending, count_move hwakes]; exact h.wakeup
  decremented := by
    intro u
    rw [hcount, h.decremented u]
    rcases eq_or_ne u t with rfl | hne
    · rw [Function.update_self, hpending]
    · rw [Function.update_of_ne hne]

theorem Joins.move (h : Joins v worker r) (hin : InRound v w) (hdue : due v w = due v (worker t))
    (hcount : ∀ u : Fin n, r'.count (.joined u) = r.count (.joined u)) (hleft : Event.left ∉ r') :
    Joins v (Function.update worker t w) r' where
  inRound := forall_update (A := fun _ => InRound v) (fun u _ => h.inRound u) hin
  joined := by
    intro u
    rw [hcount, h.joined u]
    rcases eq_or_ne u t with rfl | hne
    · rw [Function.update_self, hdue]
    · rw [Function.update_of_ne hne]
  left := hleft

/-! ### Steps that do -/

/-- A worker joins. -/
theorem Joins.join (h : Joins v worker r) (ht : due v (worker t) = true) (hw : due v w = false)
    (hin : InRound v w) : Joins v (Function.update worker t w) (r ++ [.joined t]) where
  inRound := forall_update (A := fun _ => InRound v) (fun u _ => h.inRound u) hin
  joined := by
    intro u
    rw [List.count_append, h.joined u]
    rcases eq_or_ne u t with rfl | hne
    · simp [ht, hw]
    · have hval : (t : Nat) ≠ u := fun h' => hne (Fin.ext h'.symm)
      rw [Function.update_of_ne hne, List.count_singleton]
      simp [hval]
  left := by simp [h.left]

/-- A worker draws an index. The draws so far leave room for one of each worker that is yet to draw an
index past the end, so the counter does not wrap. -/
theorem Draws.fetch (h : Draws actorCount v index worker r f) (hsize : actorCount + n ≤ 2 ^ 32)
    {d : UInt32} (ht : worker t = ⟨.fetching, d⟩) :
    Draws actorCount v (index + 1) (Function.update worker t ⟨.fetched index, d⟩) r (f + 1) := by
  have hdrawing : drawing actorCount v (worker t) = true := by rw [ht]; rfl
  have hpos := count_pos (f := drawing actorCount v) hdrawing
  have hdrawn := h.drawn
  have hlt : f < 2 ^ 32 := by omega
  have hindex : index.toNat = f := by
    rw [h.index, UInt32.toNat_ofNat']
    exact Nat.mod_eq_of_lt hlt
  constructor
  · rw [h.index, UInt32.ofNat_add]
    rfl
  · by_cases hf : f < actorCount
    · rw [count_move (by rw [hdrawing]; simp [drawing, hindex, hf])]
      omega
    · have hleave := count_leave (f := drawing actorCount v) (p := ⟨.fetched index, d⟩) hdrawing
        (by simp [drawing, hindex, hf])
      omega
  · intro i hi
    have hstarted := h.started i hi
    rcases eq_or_ne i f with rfl | hne
    · rw [count_enter (by rw [ht]; rfl) (by simp [holds, hindex])]
      rw [if_neg (lt_irrefl i)] at hstarted
      rw [if_pos (Nat.lt_succ_self i)]
      omega
    · rw [count_move (by rw [ht]; simp [holds, hindex, hne.symm]), hstarted]
      exact if_congr (by omega) rfl rfl
  · exact h.past
  · intro i
    rw [count_move (by rw [ht]; rfl)]
    exact h.finished i

/-- A worker starts the actor of the index it drew. -/
theorem Draws.start (h : Draws actorCount v index worker r f) {d i : UInt32}
    (ht : worker t = ⟨.fetched i, d⟩) (hi : i.toNat < actorCount) :
    Draws actorCount v index (Function.update worker t ⟨.running i.toNat, d⟩)
      (r ++ [.started i.toNat]) f := by
  constructor
  · exact h.index
  · rw [count_move (by rw [ht]; simp [drawing, hi])]
    exact h.drawn
  · intro j hj
    have hstarted := h.started j hj
    rw [List.count_append, List.count_singleton]
    rcases eq_or_ne j i.toNat with rfl | hne
    · have hholds : holds i.toNat (worker t) = true := by rw [ht]; simp [holds]
      have hleave := count_leave (p := ⟨.running i.toNat, d⟩) hholds rfl
      simp only [beq_self_eq_true, if_true]
      omega
    · rw [count_move (by rw [ht]; simp [holds, hne.symm])]
      simpa [hne.symm] using hstarted
  · intro j hj
    have hne : i.toNat ≠ j := by omega
    simpa [List.count_append, List.count_singleton, hne] using h.past j hj
  · intro j
    have hfinished := h.finished j
    rw [List.count_append, List.count_append, List.count_singleton, List.count_singleton]
    rcases eq_or_ne j i.toNat with rfl | hne
    · rw [count_enter (by rw [ht]; rfl) (by simp [runs])]
      simp only [beq_self_eq_true, if_true]
      simp only [beq_iff_eq, reduceCtorEq, if_false]
      omega
    · rw [count_move (by rw [ht]; simp [runs, hne.symm])]
      simpa [hne.symm] using hfinished

/-- The run of an actor returns. -/
theorem Draws.finish (h : Draws actorCount v index worker r f) {d : UInt32} {i : Nat}
    (ht : worker t = ⟨.running i, d⟩) :
    Draws actorCount v index (Function.update worker t ⟨.fetching, d⟩) (r ++ [.finished i]) f := by
  constructor
  · exact h.index
  · rw [count_move (by rw [ht]; rfl)]
    exact h.drawn
  · intro j hj
    rw [count_move (by rw [ht]; rfl)]
    simpa [List.count_append, List.count_singleton] using h.started j hj
  · intro j hj
    simpa [List.count_append, List.count_singleton] using h.past j hj
  · intro j
    have hfinished := h.finished j
    rw [List.count_append, List.count_append, List.count_singleton, List.count_singleton]
    rcases eq_or_ne j i with rfl | hne
    · have hruns : runs j (worker t) = true := by rw [ht]; simp [runs]
      have hleave := count_leave (p := ⟨.fetching, d⟩) hruns rfl
      simp only [beq_self_eq_true, if_true]
      simp only [beq_iff_eq, reduceCtorEq, if_false]
      omega
    · rw [count_move (by rw [ht]; simp [runs, hne.symm])]
      simpa [hne.symm] using hfinished

/-- A worker counts down; the one that counts down to zero is to wake the main thread up. -/
theorem Countdown.sub (h : Countdown v countdown flag worker r) {d i : UInt32}
    (ht : worker t = ⟨.fetched i, d⟩) (hd : d = v) :
    Countdown v (countdown - 1) flag
      (Function.update worker t ⟨if countdown = 1 then .waking else .leaving, d⟩)
      (r ++ [.decremented t]) := by
  have hpending : pending v (worker t) = true := by rw [ht]; rfl
  have hp : pending v ⟨if countdown = 1 then .waking else .leaving, d⟩ = false := by
    split <;> simp [pending, hd]
  have hleave := count_leave hpending hp
  have hcountdown := h.countdown
  have hwakeup := h.wakeup
  have hsub : (countdown - 1).toNat = countdown.toNat - 1 :=
    UInt32.toNat_sub_of_le _ _ (by rw [UInt32.le_iff_toNat_le]; simp; omega)
  constructor
  · omega
  · rw [if_neg (by omega)] at hwakeup
    by_cases hlast : countdown = 1
    · rw [if_pos hlast] at hleave ⊢
      have hone : countdown.toNat = 1 := by rw [hlast]; rfl
      rw [count_enter (by rw [ht]; rfl) rfl, if_pos (by omega)]
      omega
    · rw [if_neg hlast] at hleave ⊢
      have hone : countdown.toNat ≠ 1 := fun h' => hlast (UInt32.toNat_inj.mp h')
      rw [count_move (by rw [ht]; rfl), if_neg (by omega)]
      exact hwakeup
  · intro u
    rw [List.count_append, h.decremented u, List.count_singleton]
    rcases eq_or_ne u t with rfl | hne
    · simp [hpending, hp]
    · have hval : (t : Nat) ≠ u := fun h' => hne (Fin.ext h'.symm)
      rw [Function.update_of_ne hne]
      simp [hval]

/-- The worker that counted down to zero sets the flag for the main thread. -/
theorem Countdown.wake (h : Countdown v countdown flag worker r) {d : UInt32}
    (ht : worker t = ⟨.waking, d⟩) (hd : d = v) :
    Countdown v countdown true (Function.update worker t ⟨.leaving, d⟩) r := by
  have hp : pending v ⟨.leaving, d⟩ = pending v (worker t) := by rw [ht]; simp [pending, hd]
  have hwakes : wakes (worker t) = true := by rw [ht]; rfl
  have hleave := count_leave (p := ⟨.leaving, d⟩) hwakes rfl
  constructor
  · rw [count_move hp]
    exact h.countdown
  · have hwakeup := h.wakeup
    have hzero : count (pending v) worker = 0 := by
      by_contra hne
      rw [if_neg hne] at hwakeup
      omega
    rw [if_pos hzero] at hwakeup
    rw [count_move hp, if_pos hzero, Bool.toNat_true]
    omega
  · intro u
    rw [h.decremented u]
    rcases eq_or_ne u t with rfl | hne
    · rw [Function.update_self, hp]
    · rw [Function.update_of_ne hne]

/-! ### The two ends of a round -/

/-- The round of the next version begins with workers that are done with the one before it. -/
theorem Draws.begin (hrested : ∀ t, Rested v (worker t)) :
    Draws actorCount (v + 1) 0 worker [] 0 := by
  have hdue (t : Fin n) : due (v + 1) (worker t) = true := (hrested t).next.2.1
  have hdrawing : count (drawing actorCount (v + 1)) worker = n := by
    rw [count_eq_card, Fintype.card_fin]
    intro t
    have := hdue t
    unfold due at this
    unfold drawing
    split <;> simp_all
  constructor
  · rfl
  · rw [hdrawing]
    omega
  · intro i hi
    have hholds : count (holds i) worker = 0 := by
      rw [count_eq_zero]
      intro t
      have := hdue t
      unfold due at this
      unfold holds
      split <;> simp_all
    simp [hholds]
  · intro i hi
    rfl
  · intro i
    have hruns : count (runs i) worker = 0 := by
      rw [count_eq_zero]
      intro t
      have := hdue t
      unfold due at this
      unfold runs
      split <;> simp_all
    simp [hruns]

theorem count_pending_begin (hrested : ∀ t, Rested v (worker t)) :
    count (pending (v + 1)) worker = n := by
  rw [count_eq_card, Fintype.card_fin]
  intro t
  exact pending_of_due (hrested t).next.2.1

theorem Countdown.begin (hrested : ∀ t, Rested v (worker t)) (hn : 0 < n)
    (hcountdown : countdown.toNat = n) : Countdown (v + 1) countdown false worker [] := by
  have hpending := count_pending_begin hrested
  constructor
  · rw [hpending, hcountdown]
  · rw [hpending, if_neg (by omega), count_eq_zero.mpr fun t => (hrested t).next.2.2]
    rfl
  · intro t
    rw [if_pos (pending_of_due (hrested t).next.2.1)]
    rfl

theorem Joins.begin (hrested : ∀ t, Rested v (worker t)) : Joins (v + 1) worker [] := by
  constructor
  · intro t
    exact (hrested t).next.1
  · intro t
    rw [if_pos (hrested t).next.2.1]
    rfl
  · exact List.not_mem_nil

/-- Once all workers have counted down, every actor has run. -/
theorem Draws.finish_all (h : Draws actorCount v index worker r f) (hn : 0 < n)
    (hpending : ∀ t, pending v (worker t) = false) (i : Nat) :
    r.count (.started i) = (if i < actorCount then 1 else 0) ∧
      r.count (.finished i) = (if i < actorCount then 1 else 0) := by
  have none_of {g : Worker → Bool} (hg : ∀ w, g w = true → pending v w = true) :
      count g worker = 0 := by
    rw [count_eq_zero]
    intro t
    cases ht : g (worker t) with
    | false => rfl
    | true => exact absurd (hg _ ht) (by simp [hpending t])
  have hdrawn := h.drawn
  rw [none_of fun _ => pending_of_drawing] at hdrawn
  have hfinished := h.finished i
  rw [none_of fun _ => pending_of_runs] at hfinished
  by_cases hi : i < actorCount
  · have hstarted := h.started i hi
    rw [none_of fun _ => pending_of_holds, if_pos (by omega)] at hstarted
    rw [if_pos hi]
    omega
  · have hpast := h.past i (by omega)
    rw [if_neg hi]
    omega

/-- The round that the main thread leaves is as it should be. -/
theorem complete_of_left (hdraws : Draws actorCount v index worker r f)
    (hcountdown : Countdown v countdown true worker r) (hjoins : Joins v worker r) (hn : 0 < n) :
    Complete actorCount n (r ++ [.left]) ∧ ∀ t, Rested v (worker t) := by
  have hwakeup := hcountdown.wakeup
  rw [Bool.toNat_true] at hwakeup
  have hzero : count (pending v) worker = 0 := by
    by_contra hne
    rw [if_neg hne] at hwakeup
    omega
  rw [if_pos hzero] at hwakeup
  have hpending := count_eq_zero.mp hzero
  have hwakes := count_eq_zero.mp (show count wakes worker = 0 by omega)
  refine ⟨⟨r, rfl, hjoins.left, fun i => ?_, fun i => ?_, fun t ht => ?_, fun t ht => ?_⟩, fun t => ?_⟩
  · exact (hdraws.finish_all hn hpending i).1
  · exact (hdraws.finish_all hn hpending i).2
  · have hnot : due v (worker ⟨t, ht⟩) ≠ true := fun h => by
      simpa [hpending] using pending_of_due h
    simpa [hnot] using hjoins.joined ⟨t, ht⟩
  · simpa [hpending] using hcountdown.decremented ⟨t, ht⟩
  · exact rested_of_inRound (hjoins.inRound t) (hpending t) (hwakes t)

/-- What the events of a round that is going on amount to. -/
theorem ongoing (hdraws : Draws actorCount v index worker r f)
    (hcountdown : Countdown v countdown flag worker r) (hjoins : Joins v worker r) : Ongoing n r := by
  refine ⟨hjoins.left, fun i => ?_, fun i => ?_, fun t ht => ?_, fun t ht => ?_⟩
  · by_cases hi : i < actorCount
    · have hstarted := hdraws.started i hi
      split at hstarted <;> omega
    · have hpast := hdraws.past i (by omega)
      omega
  · have hfinished := hdraws.finished i
    omega
  · rw [hjoins.joined ⟨t, ht⟩]
    split <;> omega
  · rw [hjoins.joined ⟨t, ht⟩, hcountdown.decremented ⟨t, ht⟩]
    by_cases hdue : due v (worker ⟨t, ht⟩) = true
    · rw [if_pos hdue, if_pos (pending_of_due hdue)]
    · rw [if_neg hdue]
      split <;> omega

/-- No actor is run by two workers at once. -/
theorem Draws.alone (h : Draws actorCount v index worker r f) {u : Fin n} {i : Nat}
    (ht : runs i (worker t) = true) (hu : runs i (worker u) = true) : t = u := by
  have hfinished := h.finished i
  have hle : r.count (.started i) ≤ 1 := by
    by_cases hi : i < actorCount
    · have hstarted := h.started i hi
      split at hstarted <;> omega
    · have hpast := h.past i (by omega)
      omega
  exact eq_of_count_le_one (by omega) ht hu

end Round

/-! ## The invariant of a run -/

section Runs

variable {actorCount : Nat} {WorkerThreadsCount : UInt32} {n : Nat} {s s' : State n}

/-- The round `r` is going on. -/
structure Working (actorCount : Nat) (s : State n) (r : List Event) (f : Nat) : Prop where
  draws : Draws actorCount s.workerThreadsWorkVersion s.workIndex s.worker r f
  countdown : Countdown s.workerThreadsWorkVersion s.workingThreadCount s.mainThreadShouldWakeup
    s.worker r
  joins : Joins s.workerThreadsWorkVersion s.worker r

/-- No round is going on. -/
structure Idle (actorCount : Nat) (s : State n) : Prop where
  rested : ∀ t, Rested s.workerThreadsWorkVersion (s.worker t)
  asleep : s.mainThreadShouldWakeup = false
  complete : ∀ r ∈ s.rounds, Complete actorCount n r

/-- What holds at the program counter of the main thread. -/
def AtMain (actorCount : Nat) (s : State n) : Prop :=
  match s.main with
  | .storeCount | .sleep => Idle actorCount s
  | .storeIndex => Idle actorCount s ∧ s.workingThreadCount.toNat = n
  | .increment => Idle actorCount s ∧ s.workingThreadCount.toNat = n ∧ s.workIndex = 0
  | .wait => ∃ r rs f, s.rounds = r :: rs ∧ Working actorCount s r f ∧
      ∀ r' ∈ rs, Complete actorCount n r'

structure Inv (actorCount : Nat) (s : State n) : Prop where
  version : s.workerThreadsWorkVersion = UInt32.ofNat s.rounds.length
  atMain : AtMain actorCount s

/-! ### Steps -/

/-- In a round, the steps of a worker keep the round going. -/
theorem Working.step {r : List Event} {rs : List (List Event)} {f : Nat} {t : Fin n}
    (h : Working actorCount s r f) (hrounds : s.rounds = r :: rs) (hsize : actorCount + n ≤ 2 ^ 32)
    (hstep : stepWorker actorCount s t = some s') :
    s'.main = s.main ∧ s'.workerThreadsWorkVersion = s.workerThreadsWorkVersion ∧
      ∃ r' f', s'.rounds = r' :: rs ∧ Working actorCount s' r' f' := by
  obtain ⟨hdraws, hcountdown, hjoins⟩ := h
  have hin := hjoins.inRound t
  have hleft := hjoins.left
  obtain ⟨⟨pc, d⟩, ht⟩ : ∃ w, s.worker t = w := ⟨_, rfl⟩
  rw [ht] at hin
  simp only [stepWorker, ht] at hstep
  cases pc with
  | waiting =>
    dsimp only at hstep
    split at hstep
    case isFalse => cases hstep
    case isTrue hv =>
    obtain rfl := Option.some.inj hstep
    refine ⟨rfl, rfl, r ++ [Event.joined t], f, by simp only [hrounds]; rfl, ?_, ?_, ?_⟩
    · refine hdraws.move ?_ (fun i _ => ?_) (fun i => ?_) (by simp) (by simp)
      · rw [ht]
        simp [drawing, hv]
      · rw [ht]
        rfl
      · rw [ht]
        rfl
    · refine hcountdown.move ?_ ?_ (by simp)
      · rw [ht]
        simp [pending, hv]
      · rw [ht]
        rfl
    · refine hjoins.join ?_ rfl hv.symm
      rw [ht]
      simp [due, hv]
  | fetching =>
    obtain rfl := Option.some.inj hstep
    refine ⟨rfl, rfl, r, f + 1, hrounds, hdraws.fetch hsize ht, ?_, ?_⟩
    · refine hcountdown.move ?_ ?_ fun _ => rfl
      · rw [ht]
        rfl
      · rw [ht]
        rfl
    · refine hjoins.move hin ?_ (fun _ => rfl) hleft
      rw [ht]
      rfl
  | fetched i =>
    simp only [get] at hstep
    split at hstep
    case h_1 actor heq =>
      split at heq
      case isFalse => cases heq
      case isTrue hi =>
      obtain rfl := Option.some.inj heq
      obtain rfl := Option.some.inj hstep
      refine ⟨rfl, rfl, r ++ [Event.started i.toNat], f, by simp only [hrounds]; rfl,
        hdraws.start ht hi, ?_, ?_⟩
      · refine hcountdown.move ?_ ?_ (by simp)
        · rw [ht]
          rfl
        · rw [ht]
          rfl
      · refine hjoins.move hin ?_ (by simp) (by simp [hleft])
        rw [ht]
        rfl
    case h_2 heq =>
      split at heq
      case isTrue => cases heq
      case isFalse hi =>
      obtain rfl := Option.some.inj hstep
      refine ⟨rfl, rfl, r ++ [Event.decremented t], f, by simp only [hrounds]; rfl, ?_,
        hcountdown.sub ht hin, ?_⟩
      · refine hdraws.move ?_ (fun j hj => ?_) (fun j => ?_) (by simp) (by simp)
        · have hd : d = s.workerThreadsWorkVersion := hin
          rw [ht]
          split <;> simp [drawing, hi, hd]
        · have hne : i.toNat ≠ j := by omega
          rw [ht]
          split <;> simp [holds, hne]
        · rw [ht]
          split <;> rfl
      · have hd : d = s.workerThreadsWorkVersion := hin
        refine hjoins.move ?_ ?_ (by simp) (by simp [hleft])
        · split
          · exact hd
          · exact Or.inl hd
        · rw [ht]
          split <;> simp [due, hd]
  | running i =>
    obtain rfl := Option.some.inj hstep
    refine ⟨rfl, rfl, r ++ [Event.finished i], f, by simp only [hrounds]; rfl, hdraws.finish ht, ?_, ?_⟩
    · refine hcountdown.move ?_ ?_ (by simp)
      · rw [ht]
        rfl
      · rw [ht]
        rfl
    · refine hjoins.move hin ?_ (by simp) (by simp [hleft])
      rw [ht]
      rfl
  | waking =>
    obtain rfl := Option.some.inj hstep
    have hd : d = s.workerThreadsWorkVersion := hin
    refine ⟨rfl, rfl, r, f, hrounds, ?_, hcountdown.wake ht hd, ?_⟩
    · refine hdraws.move ?_ (fun i _ => ?_) (fun i => ?_) (fun _ => rfl) fun _ => rfl
      · rw [ht]
        simp [drawing, hd]
      · rw [ht]
        rfl
      · rw [ht]
        rfl
    · refine hjoins.move (Or.inl hd) ?_ (fun _ => rfl) hleft
      rw [ht]
      simp [due, hd]
  | leaving =>
    obtain rfl := Option.some.inj hstep
    -- the worker comes from the round before it, or is done with this one
    have hdesired : (decide (d + 1 = s.workerThreadsWorkVersion) : Bool) =
        decide (d ≠ s.workerThreadsWorkVersion) := by
      rcases (hin : d = _ ∨ d + 1 = _) with rfl | hd
      · simp
      · rw [← hd]
        simp
    refine ⟨rfl, rfl, r, f, hrounds, ?_, ?_, ?_⟩
    · refine hdraws.move ?_ (fun i _ => ?_) (fun i => ?_) (fun _ => rfl) fun _ => rfl
      · rw [ht]
        exact hdesired
      · rw [ht]
        rfl
      · rw [ht]
        rfl
    · refine hcountdown.move ?_ ?_ fun _ => rfl
      · rw [ht]
        exact hdesired
      · rw [ht]
        rfl
    · refine hjoins.move ?_ ?_ (fun _ => rfl) hleft
      · rcases (hin : d = _ ∨ d + 1 = _) with rfl | hd
        · exact Or.inr rfl
        · exact Or.inl hd
      · rw [ht]
        exact hdesired

/-- Between two rounds, a worker only gets ready to wait for the next one. -/
theorem Idle.step {t : Fin n} (h : Idle actorCount s) (hstep : stepWorker actorCount s t = some s') :
    Idle actorCount s' ∧ s'.main = s.main ∧
      s'.workerThreadsWorkVersion = s.workerThreadsWorkVersion ∧ s'.rounds = s.rounds ∧
      s'.workingThreadCount = s.workingThreadCount ∧ s'.workIndex = s.workIndex := by
  have hrested := h.rested t
  obtain ⟨⟨pc, d⟩, ht⟩ : ∃ w, s.worker t = w := ⟨_, rfl⟩
  rw [ht] at hrested
  simp only [stepWorker, ht] at hstep
  cases pc with
  | waiting =>
    dsimp only at hstep
    split at hstep
    case isFalse => cases hstep
    case isTrue hv => exact absurd (hv.trans hrested).symm (add_one_ne _)
  | leaving =>
    obtain rfl := Option.some.inj hstep
    have hd : d = s.workerThreadsWorkVersion := hrested
    refine ⟨⟨?_, h.asleep, h.complete⟩, rfl, rfl, rfl, rfl, rfl⟩
    refine forall_update (A := fun _ => Rested s.workerThreadsWorkVersion) (fun u _ => h.rested u) ?_
    show d + 1 = s.workerThreadsWorkVersion + 1
    rw [hd]
  | _ => exact hrested.elim

theorem Inv.stepWorker {t : Fin n} (h : Inv actorCount s) (hsize : actorCount + n ≤ 2 ^ 32)
    (hstep : stepWorker actorCount s t = some s') : Inv actorCount s' := by
  obtain ⟨hversion, hat⟩ := h
  unfold AtMain at hat
  split at hat
  case h_1 hmain | h_2 hmain =>
    obtain ⟨hidle, hmain', hv, hrounds, -, -⟩ := hat.step hstep
    refine ⟨by rw [hv, hrounds, hversion], ?_⟩
    rw [AtMain, hmain', hmain]
    exact hidle
  case h_3 hmain =>
    obtain ⟨hidle, hmain', hv, hrounds, hcount, -⟩ := hat.1.step hstep
    refine ⟨by rw [hv, hrounds, hversion], ?_⟩
    rw [AtMain, hmain', hmain]
    exact ⟨hidle, hcount ▸ hat.2⟩
  case h_4 hmain =>
    obtain ⟨hidle, hmain', hv, hrounds, hcount, hindex⟩ := hat.1.step hstep
    refine ⟨by rw [hv, hrounds, hversion], ?_⟩
    rw [AtMain, hmain', hmain]
    exact ⟨hidle, hcount ▸ hat.2.1, hindex ▸ hat.2.2⟩
  case h_5 hmain =>
    obtain ⟨r, rs, f, hrounds, hworking, hrs⟩ := hat
    obtain ⟨hmain', hv, r', f', hrounds', hworking'⟩ := hworking.step hrounds hsize hstep
    refine ⟨by rw [hv, hrounds', hversion, hrounds]; rfl, ?_⟩
    rw [AtMain, hmain', hmain]
    exact ⟨r', rs, f', hrounds', hworking', hrs⟩

theorem Inv.stepMain (h : Inv actorCount s) (hn : 0 < n) (hcount : WorkerThreadsCount.toNat = n)
    (hstep : stepMain WorkerThreadsCount s = some s') : Inv actorCount s' := by
  obtain ⟨hversion, hat⟩ := h
  unfold AtMain at hat
  unfold MainServer.stepMain at hstep
  cases hmain : s.main with
  | storeCount =>
    rw [hmain] at hat hstep
    obtain rfl := Option.some.inj hstep
    exact ⟨hversion, ⟨hat.rested, hat.asleep, hat.complete⟩, hcount⟩
  | storeIndex =>
    rw [hmain] at hat hstep
    obtain rfl := Option.some.inj hstep
    exact ⟨hversion, ⟨hat.1.rested, hat.1.asleep, hat.1.complete⟩, hat.2, rfl⟩
  | increment =>
    rw [hmain] at hat hstep
    obtain rfl := Option.some.inj hstep
    obtain ⟨hidle, hcountdown, hindex⟩ := hat
    refine ⟨?_, [], s.rounds, 0, rfl, ⟨?_, ?_, ?_⟩, hidle.complete⟩
    · show s.workerThreadsWorkVersion + 1 = UInt32.ofNat (s.rounds.length + 1)
      rw [hversion, UInt32.ofNat_add]
      rfl
    · show Draws actorCount _ s.workIndex s.worker [] 0
      rw [hindex]
      exact Draws.begin hidle.rested
    · show Countdown _ s.workingThreadCount s.mainThreadShouldWakeup s.worker []
      rw [hidle.asleep]
      exact Countdown.begin hidle.rested hn hcountdown
    · exact Joins.begin hidle.rested
  | wait =>
    rw [hmain] at hat
    simp only [hmain] at hstep
    split at hstep
    case isFalse => cases hstep
    case isTrue hwakeup =>
    obtain rfl := Option.some.inj hstep
    obtain ⟨r, rs, f, hrounds, ⟨hdraws, hcountdown, hjoins⟩, hrs⟩ := hat
    rw [hwakeup] at hcountdown
    obtain ⟨hcomplete, hrested⟩ := complete_of_left hdraws hcountdown hjoins hn
    refine ⟨?_, hrested, rfl, ?_⟩
    · rw [hrounds] at hversion ⊢
      exact hversion
    · intro r' hr'
      rw [hrounds] at hr'
      rcases List.mem_cons.mp hr' with rfl | hr'
      · exact hcomplete
      · exact hrs r' hr'
  | sleep =>
    rw [hmain] at hat hstep
    obtain rfl := Option.some.inj hstep
    exact ⟨hversion, hat.rested, hat.asleep, hat.complete⟩

theorem inv_init : Inv actorCount (init WorkerThreadsCount) :=
  ⟨rfl, fun _ => rfl, rfl, fun _ hr => absurd hr List.not_mem_nil⟩

/-- Every state that a run leads to has the invariant. -/
theorem inv_of_run {as : List (Action WorkerThreadsCount.toNat)}
    {s : State WorkerThreadsCount.toNat} (hn : 0 < WorkerThreadsCount.toNat)
    (hsize : actorCount + WorkerThreadsCount.toNat ≤ 2 ^ 32)
    (hrun : run actorCount WorkerThreadsCount as = some s) : Inv actorCount s := by
  refine run_invariant' (fun s a s' h hstep => ?_) inv_init hrun
  cases a with
  | main => exact h.stepMain hn rfl hstep
  | worker t => exact h.stepWorker hsize hstep

/-! ## The theorem -/

/-- The state is one between two rounds or one in a round. -/
theorem Inv.idle_or_working (h : Inv actorCount s) : Idle actorCount s ∨
    ∃ r rs f, s.rounds = r :: rs ∧ Working actorCount s r f ∧ ∀ r' ∈ rs, Complete actorCount n r' := by
  have hat := h.atMain
  unfold AtMain at hat
  split at hat
  case h_1 | h_2 => exact Or.inl hat
  case h_3 | h_4 => exact Or.inl hat.1
  case h_5 => exact Or.inr hat

/-- In no state are two workers inside `Run` of one actor. -/
theorem Inv.alone (h : Inv actorCount s) {t u : Fin n} {i : Nat}
    (ht : (s.worker t).pc = .running i) (hu : (s.worker u).pc = .running i) : t = u := by
  have hruns {w : Worker} (hw : w.pc = .running i) : runs i w = true := by
    simp [runs, hw]
  obtain hidle | ⟨r, rs, f, -, hworking, -⟩ := h.idle_or_working
  · have hrested := hidle.rested t
    simp [Rested, ht] at hrested
  · exact hworking.draws.alone (hruns ht) (hruns hu)

/-- The rounds before the newest one are as they should be, and the newest one is or is not over. -/
theorem Inv.rounds (h : Inv actorCount s) :
    (∀ r ∈ s.rounds.tail, Complete actorCount n r) ∧
      ∀ r ∈ s.rounds.head?, Complete actorCount n r ∨ Ongoing n r := by
  obtain hidle | ⟨r, rs, f, hrounds, hworking, hrs⟩ := h.idle_or_working
  · refine ⟨fun r hr => ?_, fun r hr => ?_⟩
    · exact hidle.complete r (List.mem_of_mem_tail hr)
    · exact Or.inl (hidle.complete r (List.mem_of_mem_head? hr))
  · rw [hrounds]
    refine ⟨hrs, fun r' hr' => Or.inr ?_⟩
    obtain rfl : r = r' := by simpa using hr'
    exact ongoing hworking.draws hworking.countdown hworking.joins

/-- **Every actor runs exactly once per round, alone, and rounds do not overlap.** In every state that a
run of the server leads to: between two increments of the version every worker joined once and counted
down once, every actor was started once and finished, and then the main thread left its wait; in the
round since the last increment nothing of this happened twice; no actor is run by two workers at once;
and the version is the number of increments. The 32-bit counter of the indices must have room for the
index past the end that each worker draws. -/
theorem runs_once_per_round {actorCount : Nat} {WorkerThreadsCount : UInt32}
    {as : List (Action WorkerThreadsCount.toNat)} {s : State WorkerThreadsCount.toNat}
    (hworkers : 0 < WorkerThreadsCount.toNat)
    (hsize : actorCount + WorkerThreadsCount.toNat ≤ 2 ^ 32)
    (hrun : run actorCount WorkerThreadsCount as = some s) :
    (∀ r ∈ s.rounds.tail, Complete actorCount WorkerThreadsCount.toNat r) ∧
      (∀ r ∈ s.rounds.head?, Complete actorCount WorkerThreadsCount.toNat r ∨
        Ongoing WorkerThreadsCount.toNat r) ∧
      (∀ t u i, (s.worker t).pc = .running i → (s.worker u).pc = .running i → t = u) ∧
      s.workerThreadsWorkVersion = UInt32.ofNat s.rounds.length := by
  have h := inv_of_run hworkers hsize hrun
  exact ⟨h.rounds.1, h.rounds.2, fun t u i => h.alone, h.version⟩

end Runs

/-- The actions of two workers and two actors up to the second round. -/
def oneRound : List (Action (UInt32.toNat 2)) :=
  let first := Action.worker ⟨0, by decide⟩
  let second := Action.worker ⟨1, by decide⟩
  [.main, .main, .main] ++ (List.replicate 6 [first, second]).flatten ++
    [second, .main, .main, first, second, .main, .main, .main]

theorem runs_once_per_round_oneRound :
    let round := [Event.joined 0, .joined 1, .started 0, .started 1, .finished 0, .finished 1,
      .decremented 0, .decremented 1, .left]
    ∃ s, run 2 2 oneRound = some s ∧ s.rounds = [[], round] ∧ Complete 2 2 round :=
  ⟨_, rfl, rfl, (runs_once_per_round (by decide) (by decide)
    (show run 2 2 oneRound = _ from rfl)).1 _ (List.mem_singleton_self _)⟩

/-! ## The counter of the indices wraps -/

section Wrap

variable {actorCount n : Nat} (WorkerThreadsCount : UInt32) {d : UInt32} {s : State n} {t : Fin n}

/-- The events of the runs of `k` actors from actor `i` on. -/
def lapEvents : Nat → Nat → List Event
  | _, 0 => []
  | i, k + 1 => .started i :: .finished i :: lapEvents (i + 1) k

theorem count_lapEvents_of_lt {i j : Nat} (h : j < i) (k : Nat) :
    (lapEvents i k).count (.started j) = 0 := by
  induction k generalizing i with
  | zero => rfl
  | succ k ih =>
    have hne : i ≠ j := by omega
    simp [lapEvents, hne, ih (show j < i + 1 by omega)]

theorem count_lapEvents (k : Nat) : (lapEvents 0 (k + 1)).count (.started 0) = 1 := by
  simp [lapEvents, count_lapEvents_of_lt (show 0 < 1 by omega)]

/-- A worker on its own runs `k` actors one after another. -/
theorem run_lap (hcount : actorCount < 2 ^ 32) (ht : s.worker t = ⟨.fetching, d⟩)
    {r : List Event} {rs : List (List Event)} {i k : Nat} (hindex : s.workIndex = UInt32.ofNat i)
    (hrounds : s.rounds = r :: rs) (hk : i + k ≤ actorCount) :
    Transition.run (step actorCount WorkerThreadsCount) s (List.replicate (3 * k) (.worker t)) =
      some { s with
        workIndex := UInt32.ofNat (i + k)
        rounds := (r ++ lapEvents i k) :: rs } := by
  induction k generalizing s i r with
  | zero => simp [lapEvents, ← hindex, ← hrounds]
  | succ k ih =>
    have hi : (UInt32.ofNat i).toNat = i := by
      rw [UInt32.toNat_ofNat']
      exact Nat.mod_eq_of_lt (by omega)
    have hlt : i < actorCount := by omega
    have hnext := ih (s := { s with
        workIndex := UInt32.ofNat (i + 1), rounds := (r ++ [.started i, .finished i]) :: rs })
      (i := i + 1) ht rfl rfl (by omega)
    rw [show 3 * (k + 1) = 3 * k + 1 + 1 + 1 by omega, List.replicate_succ, List.replicate_succ,
      List.replicate_succ]
    have hself : Function.update s.worker t ⟨.fetching, d⟩ = s.worker := by
      rw [← ht, Function.update_eq_self]
    have hone : UInt32.ofNat i + 1 = UInt32.ofNat (i + 1) := by
      rw [UInt32.ofNat_add]
      rfl
    simp only [Transition.run_cons, step, stepWorker, ht, State.setWorker, Option.bind_some,
      Function.update_self, Function.update_idem, get, hindex, hi, if_pos hlt, hrounds, record,
      hself, hone, List.append_assoc]
    rw [show i + (k + 1) = i + 1 + k by omega]
    simpa [lapEvents] using hnext

/-- A worker on its own draws an index past the last actor and counts down. -/
theorem run_past (ht : s.worker t = ⟨.fetching, d⟩) (hindex : actorCount ≤ s.workIndex.toNat) :
    Transition.run (step actorCount WorkerThreadsCount) s [.worker t, .worker t] =
      some { s with
        worker := Function.update s.worker t
          ⟨if s.workingThreadCount = 1 then .waking else .leaving, d⟩
        workIndex := s.workIndex + 1
        workingThreadCount := s.workingThreadCount - 1
        rounds := record (.decremented t) s.rounds } := by
  have hnot : ¬ s.workIndex.toNat < actorCount := by omega
  simp [Transition.run_cons, step, stepWorker, ht, State.setWorker, get, hnot]

/-- The steps of a worker that runs all actors and counts down. -/
def wholeRound (actorCount : Nat) (t : Fin n) : List (Action n) :=
  List.replicate (3 * actorCount) (.worker t) ++ [.worker t, .worker t]

/-- With `2 ^ 32 - 1` actors, the counter of the indices is back at zero when a worker on its own has
counted down. -/
theorem run_wholeRound (hcount : actorCount + 1 = 2 ^ 32) (ht : s.worker t = ⟨.fetching, d⟩)
    (hindex : s.workIndex = UInt32.ofNat 0) {r : List Event} (hrounds : s.rounds = [r]) :
    ∃ s', Transition.run (step actorCount WorkerThreadsCount) s (wholeRound actorCount t) = some s' ∧
      s'.worker = Function.update s.worker t
        ⟨if s.workingThreadCount = 1 then .waking else .leaving, d⟩ ∧
      s'.workIndex = UInt32.ofNat 0 ∧ s'.workingThreadCount = s.workingThreadCount - 1 ∧
      s'.main = s.main ∧ s'.rounds = [r ++ lapEvents 0 actorCount ++ [.decremented t]] := by
  have hpast : actorCount ≤ (UInt32.ofNat (0 + actorCount)).toNat := by
    rw [UInt32.toNat_ofNat', Nat.zero_add, Nat.mod_eq_of_lt (by omega)]
  have hwrap : UInt32.ofNat (0 + actorCount) + 1 = UInt32.ofNat 0 := by
    rw [← UInt32.ofNat_one, ← UInt32.ofNat_add, Nat.zero_add, hcount]
    rfl
  have hlap := run_lap WorkerThreadsCount (show actorCount < 2 ^ 32 by omega)
    ht hindex hrounds (show 0 + actorCount ≤ actorCount by omega)
  exact ⟨_, Transition.run_append hlap (run_past WorkerThreadsCount ht hpast), rfl, hwrap, rfl, rfl, rfl⟩

end Wrap

def firstWorker : Fin (UInt32.toNat 2) := ⟨0, by decide⟩

def secondWorker : Fin (UInt32.toNat 2) := ⟨1, by decide⟩

/-- A round of two workers, the first of which runs all actors and counts down before the second one
starts and does the same. -/
theorem exists_round_of_wrap {k : Nat} (hk : k + 1 = 2 ^ 32) :
    ∃ as s, run k 2 as = some s ∧
      s.rounds = [[], [.joined 0, .joined 1] ++ lapEvents 0 k ++ [.decremented 0] ++
        lapEvents 0 k ++ [.decremented 1] ++ [.left]] := by
  obtain ⟨s, hs, hw, hu, hi, hcount, hmain, hr⟩ : ∃ s, run k 2
      [.main, .main, .main, .worker firstWorker, .worker secondWorker] = some s ∧
      s.worker firstWorker = ⟨.fetching, 1⟩ ∧ s.worker secondWorker = ⟨.fetching, 1⟩ ∧
      s.workIndex = UInt32.ofNat 0 ∧ s.workingThreadCount = 2 ∧ s.main = .wait ∧
      s.rounds = [[.joined 0, .joined 1]] :=
    ⟨_, rfl, rfl, rfl, rfl, rfl, rfl, rfl⟩
  obtain ⟨s', hs', hw', hi', hcount', hmain', hr'⟩ :=
    run_wholeRound 2 hk hw hi hr
  have hu' : s'.worker secondWorker = ⟨.fetching, 1⟩ := by
    rw [hw', Function.update_of_ne (by decide), hu]
  obtain ⟨u, hsu, hwu, -, -, hmainu, hru⟩ := run_wholeRound 2 hk hu' hi' hr'
  have hwaking : u.worker secondWorker = ⟨.waking, 1⟩ := by
    rw [hwu, Function.update_self, hcount', hcount]
    rfl
  have hwait : u.main = .wait := by rw [hmainu, hmain', hmain]
  obtain ⟨e, hse, hre⟩ : ∃ e, Transition.run (step k 2) u
      [.worker secondWorker, .main, .main, .main, .main, .main] = some e ∧
      e.rounds = [] :: record .left u.rounds := by
    simp [Transition.run_cons, step, stepWorker, hwaking, stepMain, State.setWorker, hwait]
  refine ⟨_, e, Transition.run_append hs (Transition.run_append hs' (Transition.run_append hsu hse)), ?_⟩
  rw [hre, hru]
  rfl

/-- Where the counter of the indices wraps, each of two workers runs every actor in one round. -/
theorem started_twice_of_wrap {k : Nat} (hk : k + 1 = 2 ^ 32) :
    ∃ as s, run k 2 as = some s ∧
      ∃ r ∈ s.rounds.tail, r.count (.started 0) = 2 ∧ ¬ Complete k 2 r := by
  obtain ⟨as, s, hrun, hrounds⟩ := exists_round_of_wrap hk
  have hone : (lapEvents 0 k).count (.started 0) = 1 := by
    obtain ⟨j, rfl⟩ : ∃ j, k = j + 1 := ⟨k - 1, by omega⟩
    exact count_lapEvents j
  refine ⟨as, s, hrun, _, by rw [hrounds]; exact List.mem_singleton_self _, ?_, ?_⟩
  · simp [hone]
  · rintro ⟨body, hbody, -, hstarted, -⟩
    obtain rfl := List.append_cancel_right hbody
    have htwice := hstarted 0
    simp only [List.count_append, hone] at htwice
    split at htwice <;> simp at htwice

theorem started_twice :
    ∃ as s, run (2 ^ 32 - 1) 2 as = some s ∧
      ∃ r ∈ s.rounds.tail, r.count (.started 0) = 2 ∧ ¬ Complete (2 ^ 32 - 1) 2 r :=
  started_twice_of_wrap rfl

end RatkiniaServer.MainServer
