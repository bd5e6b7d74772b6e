import RatkiniaServer.Lib.Forever
import RatkiniaServer.Proofs.ActorSystem
import Mathlib.Data.Prod.Lex

/-!
# The rounds go on

A round ends, however many messages are pushed while it goes on: after a `Run` has swapped the vectors,
a push does not concern it any more. The measure of what is left to do before the next round has two
parts, the second of which is what the loops in the mailboxes have left; they are known only when a loop
begins, and the first part is smaller then. A push changes neither part.
-/

namespace RatkiniaServer

open Transition Threads Filter

universe u

namespace MainServer

variable {n actorCount : Nat} {s s' : State n} {t : Fin n}

/-- The steps of the main thread before it begins the next round. -/
def stepsBeforeRound : MainPc → Nat
  | .wait => 4
  | .sleep => 3
  | .storeCount => 2
  | .storeIndex => 1
  | .increment => 0

/-- The actors whose `Run` has not been called in a round. -/
def unstarted (actorCount : Nat) (r : List Event) : Finset Nat :=
  (Finset.range actorCount).filter fun i => .started i ∉ r

theorem unstarted_append_of_ne {e : Event} (he : ∀ i, e ≠ .started i) (r : List Event) :
    unstarted actorCount (r ++ [e]) = unstarted actorCount r := by
  apply Finset.filter_congr
  intro i _
  simp [(he i).symm]

theorem card_unstarted_started {i : Nat} {r : List Event} (hi : i < actorCount)
    (hr : .started i ∉ r) :
    (unstarted actorCount (r ++ [.started i])).card + 1 = (unstarted actorCount r).card := by
  have hmem : i ∈ unstarted actorCount r := by simp [unstarted, hi, hr]
  have herase : unstarted actorCount (r ++ [.started i]) = (unstarted actorCount r).erase i := by
    ext j
    simp only [unstarted, Finset.mem_filter, Finset.mem_range, Finset.mem_erase, List.mem_append,
      List.mem_singleton, Event.started.injEq, not_or]
    tauto
  rw [herase]
  exact Finset.card_erase_add_one hmem

theorem Inv.inRound (h : Inv actorCount s) (t : Fin n) :
    InRound s.workerThreadsWorkVersion (s.worker t) := by
  obtain hidle | ⟨r, rs, f, -, hworking, -⟩ := h.idle_or_working
  · have hrested := hidle.rested t
    unfold Rested at hrested
    unfold InRound
    split at hrested <;> simp_all
  · exact hworking.joins.inRound t

/-- The actor of an index that a worker has drawn has not been started. -/
theorem Inv.not_started {workIndex : UInt32} (h : Inv actorCount s)
    (hpc : (s.worker t).pc = .fetched workIndex) (hlt : workIndex.toNat < actorCount) :
    .started workIndex.toNat ∉ newest s.rounds := by
  obtain hidle | ⟨r, rs, f, hrounds, hworking, -⟩ := h.idle_or_working
  · have hrested := hidle.rested t
    simp [Rested, hpc] at hrested
  · have hholds : holds workIndex.toNat (s.worker t) = true := by simp [holds, hpc]
    have hpos := count_pos hholds
    have hstarted := hworking.draws.started _ hlt
    rw [hrounds]
    refine List.count_eq_zero.mp (?_ : r.count (.started workIndex.toNat) = 0)
    split at hstarted <;> omega

/-- A worker that has yet to count down, or to wake the main thread up, can go on. -/
theorem exists_stepWorker {v : UInt32} (hv : s.workerThreadsWorkVersion = v)
    (h : pending v (s.worker t) = true ∨ wakes (s.worker t) = true) :
    ∃ s', stepWorker actorCount s t = some s' := by
  rw [← Option.isSome_iff_exists]
  cases hpc : (s.worker t).pc with
  | waiting =>
    have hdesired : (s.worker t).desiredVersion = v := by simpa [pending, wakes, hpc] using h
    simp [stepWorker, hpc, hdesired, hv]
  | fetched workIndex =>
    cases hget : get actorCount workIndex <;> simp [stepWorker, hpc, hget]
  | fetching | running actor | waking | leaving => simp [stepWorker, hpc]

/-- The threads are never all stuck: where the main thread waits and is not woken up, some worker has
yet to count down, or to wake it up. -/
theorem Inv.exists_step (WorkerThreadsCount : UInt32) (h : Inv actorCount s) :
    (∃ s', MainServer.stepMain WorkerThreadsCount s = some s') ∨
      ∃ t s', MainServer.stepWorker actorCount s t = some s' := by
  have hat := h.atMain
  unfold AtMain at hat
  unfold MainServer.stepMain
  cases hmain : s.main with
  | storeCount | storeIndex | increment | sleep => exact Or.inl ⟨_, rfl⟩
  | wait =>
    rw [hmain] at hat
    obtain ⟨r, rs, f, -, hworking, -⟩ := hat
    by_cases hflag : s.mainThreadShouldWakeup = true
    · exact Or.inl ⟨_, if_pos hflag⟩
    right
    have hwakeup := hworking.countdown.wakeup
    simp only [hflag, Bool.toNat_false, Nat.add_zero] at hwakeup
    obtain ⟨t, ht⟩ : ∃ t, pending s.workerThreadsWorkVersion (s.worker t) = true ∨
        wakes (s.worker t) = true := by
      by_contra hnone
      push Not at hnone
      simp only [Bool.not_eq_true] at hnone
      rw [count_eq_zero.mpr fun t => (hnone t).1, count_eq_zero.mpr fun t => (hnone t).2] at hwakeup
      simp at hwakeup
    exact ⟨t, exists_stepWorker rfl ht⟩

end MainServer

namespace ActorSystem

variable {n : Nat} {M : Type u} {r : ActorRegistry} {WorkerThreadsCount : UInt32}
  {messageHandlers : String → UInt32 → Bool} {typeIndex : M → UInt32}

/-! ## What is left to do -/

/-- The steps of a `Run` that are no iterations of its loop. -/
def runRank : RunPc → Nat
  | .idle => 7
  | .entered => 6
  | .swapping => 5
  | .beforeLoop => 4
  | .looping _ _ _ => 3
  | .clearing => 2
  | .tick => 1

/-- The iterations that a loop has left. -/
def loopLeft : RunPc → Nat
  | .looping _ i size => size - i
  | _ => 0

/-- What a worker has left to do in the round of version `v`, loops apart. -/
def rank (v : UInt32) (w : MainServer.Worker) (pc : RunPc) : Nat :=
  match w.pc with
  | .waiting => if w.desiredVersion = v then 5 else 0
  | .fetching => 4
  | .fetched _ => 3
  | .running _ => 5 + runRank pc
  | .waking => 2
  | .leaving => if w.desiredVersion + 1 = v then 6 else 1

/-- What is left to do before the next round, loops apart. An actor that is yet to be started counts
for its `Run` and for what the worker does that draws its index. -/
def workLeft (r : ActorRegistry) (s : ActorSystem n M) : Nat :=
  ∑ t, rank s.server.workerThreadsWorkVersion (s.server.worker t) (s.runPc t) +
    10 * (MainServer.unstarted r.actorRunQueue.length (MainServer.newest s.server.rounds)).card

/-- The measure of a round. -/
def roundMeasure (r : ActorRegistry) (s : ActorSystem n M) : ℕ ×ₗ ℕ :=
  toLex (MainServer.stepsBeforeRound s.server.main + s.workLeft r, ∑ t, loopLeft (s.runPc t))

theorem roundMeasure_lt {s s' : ActorSystem n M}
    (h : MainServer.stepsBeforeRound s'.server.main + s'.workLeft r <
        MainServer.stepsBeforeRound s.server.main + s.workLeft r ∨
      MainServer.stepsBeforeRound s'.server.main + s'.workLeft r =
        MainServer.stepsBeforeRound s.server.main + s.workLeft r ∧
      ∑ t, loopLeft (s'.runPc t) < ∑ t, loopLeft (s.runPc t)) :
    s'.roundMeasure r < s.roundMeasure r :=
  Prod.Lex.toLex_lt_toLex.mpr h

/-- The step is one of the main thread or of a worker. -/
def Action.isThread : Action n M → Prop
  | .main | .worker _ => True
  | .tryPushMessageTo _ _ => False

section Step

variable {s s' : ActorSystem WorkerThreadsCount.toNat M} {t : Fin WorkerThreadsCount.toNat}
  {name : String}

theorem roundMeasure_stepMain {server : MainServer.State WorkerThreadsCount.toNat}
    (hstep : MainServer.stepMain WorkerThreadsCount s.server = some server) :
    server.rounds = [] :: s.server.rounds ∨
      roundMeasure r { s with server := server } < s.roundMeasure r := by
  unfold MainServer.stepMain at hstep
  cases hmain : s.server.main with
  | increment =>
    simp only [hmain, Option.some.injEq] at hstep
    subst hstep
    exact Or.inl rfl
  | storeCount | storeIndex | sleep =>
    simp only [hmain, Option.some.injEq] at hstep
    subst hstep
    right
    apply roundMeasure_lt
    simp [workLeft, MainServer.stepsBeforeRound, hmain]
  | wait =>
    simp only [hmain] at hstep
    split_ifs at hstep
    obtain rfl := Option.some.inj hstep
    right
    apply roundMeasure_lt
    simp [workLeft, MainServer.stepsBeforeRound, hmain, MainServer.unstarted_append_of_ne]

/-- What a worker does outside of a `Run` makes what is left less. -/
theorem rank_stepOutside {server : MainServer.State WorkerThreadsCount.toNat}
    (hinv : MainServer.Inv r.actorRunQueue.length s.server)
    (hpc : ∀ i, (s.server.worker t).pc ≠ .running i)
    (hstep : MainServer.stepWorker r.actorRunQueue.length s.server t = some server) :
    server.main = s.server.main ∧
      server.workerThreadsWorkVersion = s.server.workerThreadsWorkVersion ∧
      rank server.workerThreadsWorkVersion (server.worker t) .idle +
          10 * (MainServer.unstarted r.actorRunQueue.length (MainServer.newest server.rounds)).card <
        rank s.server.workerThreadsWorkVersion (s.server.worker t) .idle +
          10 * (MainServer.unstarted r.actorRunQueue.length
            (MainServer.newest s.server.rounds)).card := by
  have hin := hinv.inRound t
  unfold MainServer.stepWorker at hstep
  unfold MainServer.InRound at hin
  have hnext := MainServer.add_one_ne s.server.workerThreadsWorkVersion
  cases h : (s.server.worker t).pc with
  | running i => exact absurd h (hpc i)
  | waiting =>
    simp only [h] at hstep
    split_ifs at hstep with hversion
    obtain rfl := Option.some.inj hstep
    refine ⟨rfl, rfl, ?_⟩
    simp [rank, h, hversion, MainServer.State.setWorker, MainServer.unstarted_append_of_ne]
  | fetching =>
    simp only [h, Option.some.injEq] at hstep
    subst hstep
    exact ⟨rfl, rfl, by simp [rank, h, MainServer.State.setWorker]⟩
  | fetched workIndex =>
    simp only [h] at hstep hin
    cases hget : MainServer.get r.actorRunQueue.length workIndex with
    | some actor =>
      simp only [hget, Option.some.injEq] at hstep
      subst hstep
      unfold MainServer.get at hget
      split_ifs at hget with hlt
      obtain rfl := Option.some.inj hget
      have hcard := MainServer.card_unstarted_started hlt (hinv.not_started h hlt)
      refine ⟨rfl, rfl, ?_⟩
      simp only [rank, h, MainServer.State.setWorker, Function.update_self, runRank,
        MainServer.newest_record]
      omega
    | none =>
      simp only [hget, Option.some.injEq] at hstep
      subst hstep
      refine ⟨rfl, rfl, ?_⟩
      simp only [rank, h, MainServer.State.setWorker, Function.update_self,
        MainServer.newest_record, MainServer.unstarted_append_of_ne (e := .decremented t) (by simp)]
      split_ifs <;> simp_all
  | waking =>
    simp only [h, Option.some.injEq] at hstep hin
    subst hstep
    refine ⟨rfl, rfl, ?_⟩
    simp [rank, h, MainServer.State.setWorker, hin, hnext]
  | leaving =>
    simp only [h, Option.some.injEq] at hstep hin
    subst hstep
    refine ⟨rfl, rfl, ?_⟩
    simp only [rank, h, MainServer.State.setWorker, Function.update_self]
    split_ifs <;> omega

/-- A step of `Run` is no iteration of the loop, or leaves one less. -/
theorem runRank_run {a a' : DynamicActor M} (h : DynamicActor.Inv a) (hrun : a.run = some a')
    (ha : a'.pc ≠ .idle) :
    runRank a'.pc < runRank a.pc ∨
      runRank a'.pc = runRank a.pc ∧ loopLeft a'.pc < loopLeft a.pc := by
  have hlocal := h.here
  cases hpc : a.pc with
  | entered =>
    simp only [DynamicActor.run, hpc] at hrun
    split_ifs at hrun <;> obtain rfl := Option.some.inj hrun <;> simp [runRank]
  | looping index i size =>
    simp only [DynamicActor.Local, hpc] at hlocal
    simp only [DynamicActor.run, hpc] at hrun
    split_ifs at hrun with hi
    · obtain rfl := Option.some.inj hrun
      simp [runRank]
    · cases hget : (a.messageQueue index)[i]? with
      | none => simp [hget] at hrun
      | some x =>
        cases x with
        | none => simp [hget] at hrun
        | some m =>
          simp only [hget, Option.some.injEq] at hrun
          subst hrun
          have hle := hlocal.2.2.1
          right
          simp only [runRank, loopLeft, true_and]
          omega
  | tick =>
    simp only [DynamicActor.run, hpc, Option.some.injEq] at hrun
    subst hrun
    exact absurd rfl ha
  | idle | swapping | beforeLoop | clearing =>
    simp only [DynamicActor.run, hpc, Option.some.injEq] at hrun
    subst hrun
    simp [runRank]

theorem Inv.roundMeasure_stepWorker (h : Inv r messageHandlers typeIndex s)
    (hinv : MainServer.Inv r.actorRunQueue.length s.server)
    (hstep : s.stepWorker r t = some s') : s'.roundMeasure r < s.roundMeasure r := by
  apply roundMeasure_lt
  unfold workLeft
  obtain ⟨server, hpc, hserver, rfl⟩ | ⟨i, name, a, hpc, hname, hrun, hcases⟩ :=
    stepWorker_cases hstep
  · obtain ⟨hmain, hversion, hrank⟩ := rank_stepOutside hinv hpc hserver
    have hsum := sum_step (i := t)
      (f := fun u => rank server.workerThreadsWorkVersion (server.worker u) (s.runPc u))
      (g := fun u => rank s.server.workerThreadsWorkVersion (s.server.worker u) (s.runPc u))
      fun u hu => by rw [hversion, MainServer.worker_stepWorker hserver hu]
    simp only [h.idle t hpc] at hsum
    left
    simp only [hmain]
    omega
  have hmail := h.mailbox_inv (Or.inl ⟨t, ⟨i, hpc, hname⟩, rfl⟩)
  have hinside : rank s.server.workerThreadsWorkVersion (s.server.worker t) (s.runPc t) =
      5 + runRank (s.runPc t) := by simp only [rank, hpc]
  obtain ⟨ha, rfl⟩ | ⟨ha, rfl⟩ := hcases
  · have hranks := sum_step (i := t)
      (f := fun u => rank s.server.workerThreadsWorkVersion (s.server.worker u)
        ((s.setActor t name a).runPc u))
      (g := fun u => rank s.server.workerThreadsWorkVersion (s.server.worker u) (s.runPc u))
      fun u hu => by rw [runPc_setActor_of_ne s name a hu]
    have hloops := sum_step (i := t) (f := fun u => loopLeft ((s.setActor t name a).runPc u))
      (g := fun u => loopLeft (s.runPc u)) fun u hu => by rw [runPc_setActor_of_ne s name a hu]
    have hnow : (s.setActor t name a).runPc t = a.pc := Function.update_self ..
    have hafter : rank s.server.workerThreadsWorkVersion (s.server.worker t) a.pc =
        5 + runRank a.pc := by simp only [rank, hpc]
    simp only [hnow, hinside, hafter] at hranks hloops
    have hserver : (s.setActor t name a).server = s.server := rfl
    rw [hserver]
    obtain hless | ⟨heq, hless⟩ := runRank_run hmail hrun ha
    · left
      simp only [seen] at hless
      omega
    · right
      simp only [seen] at heq hless
      omega
  · -- the worker has left the `Run`, whose last step counts for more than what comes after it
    have hranks := sum_step (i := t)
      (f := fun u => rank s.server.workerThreadsWorkVersion
        ((s.server.setWorker t { s.server.worker t with pc := .fetching }).worker u)
        ((s.setActor t name a).runPc u))
      (g := fun u => rank s.server.workerThreadsWorkVersion (s.server.worker u) (s.runPc u))
      fun u hu => by
        rw [runPc_setActor_of_ne s name a hu]
        simp only [MainServer.State.setWorker, Function.update_of_ne hu]
    have hafter : rank s.server.workerThreadsWorkVersion
        ((s.server.setWorker t { s.server.worker t with pc := .fetching }).worker t)
        ((s.setActor t name a).runPc t) = 4 := by
      simp [rank, MainServer.State.setWorker]
    simp only [hinside, hafter] at hranks
    left
    simp only [MainServer.newest_record,
      MainServer.unstarted_append_of_ne (e := .finished i) (by simp)]
    simp only [MainServer.State.setWorker] at hranks ⊢
    omega

/-- A push leaves what is left to do as it is, a step of another kind begins a round or leaves less to
do. -/
theorem Inv.roundMeasure_step {act : Action WorkerThreadsCount.toNat M}
    (h : Inv r messageHandlers typeIndex s)
    (hinv : MainServer.Inv r.actorRunQueue.length s.server)
    (hstep : step r WorkerThreadsCount s act = some s') :
    (¬ act.isThread ∧ s'.roundMeasure r = s.roundMeasure r) ∨
    s'.server.rounds = [] :: s.server.rounds ∨ s'.roundMeasure r < s.roundMeasure r := by
  cases act with
  | main =>
    obtain ⟨server, hserver, rfl⟩ := Option.map_eq_some_iff.mp hstep
    exact Or.inr (roundMeasure_stepMain hserver)
  | worker t => exact Or.inr (Or.inr (h.roundMeasure_stepWorker hinv hstep))
  | tryPushMessageTo name message =>
    obtain rfl := Option.some.inj hstep
    refine Or.inl ⟨id, ?_⟩
    unfold ActorSystem.tryPushMessageTo
    split_ifs <;> rfl

/-- A worker begins no round. -/
theorem length_rounds_stepWorker (hinv : MainServer.Inv r.actorRunQueue.length s.server)
    (hsize : r.actorRunQueue.length + WorkerThreadsCount.toNat ≤ 2 ^ 32)
    (hstep : s.stepWorker r t = some s') : s'.server.rounds.length = s.server.rounds.length := by
  obtain ⟨server, -, hserver, rfl⟩ | ⟨i, name, a, hpc, -, -, ⟨-, rfl⟩ | ⟨-, rfl⟩⟩ :=
    stepWorker_cases hstep
  · exact hinv.rounds_stepWorker hsize hserver
  · rfl
  · exact hinv.rounds_stepWorker hsize (MainServer.stepWorker_running _ hpc)

/-- No round is forgotten. -/
theorem rounds_le {act : Action WorkerThreadsCount.toNat M}
    (hinv : MainServer.Inv r.actorRunQueue.length s.server)
    (hsize : r.actorRunQueue.length + WorkerThreadsCount.toNat ≤ 2 ^ 32)
    (hstep : step r WorkerThreadsCount s act = some s') :
    s.server.rounds.length ≤ s'.server.rounds.length := by
  cases act with
  | main =>
    obtain ⟨server, hserver, rfl⟩ := Option.map_eq_some_iff.mp hstep
    obtain ⟨-, ⟨hrounds, -⟩ | ⟨hlength, -⟩⟩ := hinv.stepMain_cases hserver
    · simp [hrounds]
    · exact hlength.ge
  | worker t => exact (length_rounds_stepWorker hinv hsize hstep).ge
  | tryPushMessageTo name message =>
    obtain rfl := Option.some.inj hstep
    unfold ActorSystem.tryPushMessageTo
    split_ifs <;> exact le_refl _

end Step

section Theorems

variable {names : List String} {s : ℕ → ActorSystem WorkerThreadsCount.toNat M}
  {a : ℕ → Action WorkerThreadsCount.toNat M}

/-- The threads of the server are never all stuck. -/
theorem exists_step {s : ActorSystem WorkerThreadsCount.toNat M}
    (h : Inv r messageHandlers typeIndex s)
    (hinv : MainServer.Inv r.actorRunQueue.length s.server) :
    ∃ act : Action WorkerThreadsCount.toNat M, act.isThread ∧
      ∃ s', step r WorkerThreadsCount s act = some s' := by
  obtain ⟨server, hserver⟩ | ⟨t, server, hserver⟩ :=
    hinv.exists_step WorkerThreadsCount
  · exact ⟨.main, trivial, { s with server := server },
      by simp only [step, hserver, Option.map_some]⟩
  by_cases hpc : ∃ i, (s.server.worker t).pc = .running i
  · obtain ⟨i, hpc⟩ := hpc
    have hname := List.getElem?_eq_getElem (hinv.running_lt hpc)
    have hmail := h.mailbox_inv (Or.inl ⟨t, ⟨i, hpc, hname⟩, rfl⟩)
    obtain ⟨a, hrun, -⟩ := hmail.run
    exact ⟨.worker t, trivial, exists_stepWorker hpc hname hrun⟩
  · refine ⟨.worker t, trivial, { s with server := server }, ?_⟩
    simp only [step, stepWorker]
    cases h : (s.server.worker t).pc with
    | running i => exact absurd ⟨i, h⟩ hpc
    | _ => simp only [hserver, Option.map_some]

theorem inv_forever (hnames : names.Nodup) (hworkers : 0 < WorkerThreadsCount.toNat)
    (hsize : names.length + WorkerThreadsCount.toNat ≤ 2 ^ 32)
    (hinit : Reachable (step (.create names) WorkerThreadsCount)
      (init WorkerThreadsCount messageHandlers typeIndex) (s 0))
    (hrun : Forever (step (.create names) WorkerThreadsCount) s a) (k : ℕ) :
    Inv (.create names) messageHandlers typeIndex (s k) ∧
      MainServer.Inv (ActorRegistry.create names).actorRunQueue.length (s k).server := by
  have h : Inv (.create names) messageHandlers typeIndex (s k) :=
    inv_of_reachable hnames hworkers hsize (hinit.trans (hrun.reachable (Nat.zero_le k)))
  exact ⟨h, h.server_inv hworkers ((ActorRegistry.actorRunQueue_create names).symm ▸ hsize)⟩

/-- In an infinite run, rounds begin again and again. -/
theorem rounds_recur (hnames : names.Nodup) (hworkers : 0 < WorkerThreadsCount.toNat)
    (hsize : names.length + WorkerThreadsCount.toNat ≤ 2 ^ 32)
    (hinit : Reachable (step (.create names) WorkerThreadsCount)
      (init WorkerThreadsCount messageHandlers typeIndex) (s 0))
    (hrun : Forever (step (.create names) WorkerThreadsCount) s a)
    (hactive : ∃ᶠ k in atTop, (a k).isThread) :
    ∃ᶠ k in atTop, (s (k + 1)).server.rounds = [] :: (s k).server.rounds := by
  refine frequently_of_measure (fun j => (s j).roundMeasure (.create names)) (fun j => ?_) hactive
  obtain ⟨h, hinv⟩ := inv_forever hnames hworkers hsize hinit hrun j
  exact h.roundMeasure_step hinv (hrun j)

/-- After any time, any number of rounds begin. -/
theorem exists_rounds (hnames : names.Nodup) (hworkers : 0 < WorkerThreadsCount.toNat)
    (hsize : names.length + WorkerThreadsCount.toNat ≤ 2 ^ 32)
    (hinit : Reachable (step (.create names) WorkerThreadsCount)
      (init WorkerThreadsCount messageHandlers typeIndex) (s 0))
    (hrun : Forever (step (.create names) WorkerThreadsCount) s a)
    (hactive : ∃ᶠ k in atTop, (a k).isThread) (k m : ℕ) :
    ∃ j, k ≤ j ∧ m < (s j).server.rounds.length := by
  refine exists_lt_of_frequently (fun j => ?_) ?_ k m
  · obtain ⟨-, hinv⟩ := inv_forever hnames hworkers hsize hinit hrun j
    exact rounds_le hinv ((ActorRegistry.actorRunQueue_create names).symm ▸ hsize) (hrun j)
  · refine (rounds_recur hnames hworkers hsize hinit hrun hactive).mono fun j hbegins => ?_
    rw [hbegins]
    exact Nat.lt_succ_self _

/-- **The rounds go on forever.** In no state are all threads of the server stuck; and in an infinite
run in which their steps do not stop, round after round begins, however they take turns and whatever is
pushed meanwhile. -/
theorem rounds_go_on (hnames : names.Nodup) (hworkers : 0 < WorkerThreadsCount.toNat)
    (hsize : names.length + WorkerThreadsCount.toNat ≤ 2 ^ 32)
    (hinit : Reachable (step (.create names) WorkerThreadsCount)
      (init WorkerThreadsCount messageHandlers typeIndex) (s 0))
    (hrun : Forever (step (.create names) WorkerThreadsCount) s a) :
    (∀ k, ∃ act : Action WorkerThreadsCount.toNat M, act.isThread ∧
      ∃ s', step (.create names) WorkerThreadsCount (s k) act = some s') ∧
    ((∃ᶠ k in atTop, (a k).isThread) →
      ∃ᶠ k in atTop, (s (k + 1)).server.rounds = [] :: (s k).server.rounds) := by
  refine ⟨fun k => ?_, rounds_recur hnames hworkers hsize hinit hrun⟩
  obtain ⟨h, hinv⟩ := inv_forever hnames hworkers hsize hinit hrun k
  exact exists_step h hinv

/-- **Every message is delivered eventually.** In an infinite run in which the steps of the server's
threads do not stop, every actor is eventually passed what has been pushed to it, in this order and
first of all. -/
theorem delivered_eventually (hnames : names.Nodup) (hworkers : 0 < WorkerThreadsCount.toNat)
    (hsize : names.length + WorkerThreadsCount.toNat ≤ 2 ^ 32)
    (hinit : Reachable (step (.create names) WorkerThreadsCount)
      (init WorkerThreadsCount messageHandlers typeIndex) (s 0))
    (hrun : Forever (step (.create names) WorkerThreadsCount) s a)
    (hactive : ∃ᶠ k in atTop, (a k).isThread) {name : String} (hname : name ∈ names) (k : ℕ) :
    ∃ j, k ≤ j ∧ ((s k).actor name).pushed <+: ((s j).actor name).delivered.map Delivery.message := by
  obtain ⟨j, hj, hlong⟩ := exists_rounds hnames hworkers hsize hinit hrun hactive k
    ((s k).server.rounds.length + 1)
  have hreach := hinit.trans (hrun.reachable (Nat.zero_le k))
  obtain ⟨hpushed, hle⟩ := length_pushed_le_delivered hnames hworkers hsize hreach (hrun.reachable hj)
    (Or.inl hlong) hname
  obtain ⟨hdelivered, -⟩ := delivered_spec hnames hworkers hsize (hreach.trans (hrun.reachable hj)) name
  refine ⟨j, hj, List.prefix_of_prefix_length_le hpushed hdelivered ?_⟩
  rw [List.length_map]
  exact hle

/-- The threads can go on forever by themselves. -/
theorem exists_forever_threads (hnames : names.Nodup) (hworkers : 0 < WorkerThreadsCount.toNat)
    (hsize : names.length + WorkerThreadsCount.toNat ≤ 2 ^ 32)
    {s₀ : ActorSystem WorkerThreadsCount.toNat M}
    (h₀ : Reachable (step (.create names) WorkerThreadsCount)
      (init WorkerThreadsCount messageHandlers typeIndex) s₀) :
    ∃ (s : ℕ → ActorSystem WorkerThreadsCount.toNat M) (a : ℕ → Action WorkerThreadsCount.toNat M),
      Forever (step (.create names) WorkerThreadsCount) s a ∧ s 0 = s₀ ∧ ∀ k, (a k).isThread := by
  refine exists_forever (P := Reachable (step (.create names) WorkerThreadsCount)
    (init WorkerThreadsCount messageHandlers typeIndex)) (A := fun _ => Action.isThread) (fun _ s hs => ?_) h₀
  have h : Inv (.create names) messageHandlers typeIndex s :=
    inv_of_reachable hnames hworkers hsize hs
  obtain ⟨act, hact, s', hstep⟩ := exists_step h
    (h.server_inv hworkers ((ActorRegistry.actorRunQueue_create names).symm ▸ hsize))
  exact ⟨act, s', hact, hstep, hs.next hstep⟩

theorem rounds_go_on_pair :
    ∃ (s : ℕ → ActorSystem (UInt32.toNat 2) Nat) (a : ℕ → Action (UInt32.toNat 2) Nat),
      Forever (step (.create pairActors) 2) s a ∧ s 0 = pair ∧
      ∃ᶠ k in atTop, (s (k + 1)).server.rounds = [] :: (s k).server.rounds := by
  have hreach : Reachable (step (.create pairActors) 2) (init 2 (fun _ _ => true) fun _ => 0) pair :=
    .refl _
  obtain ⟨s, a, hrun, hinit, hthread⟩ :=
    exists_forever_threads nodup_pairActors (by decide) (by decide) hreach
  have hrounds := (rounds_go_on nodup_pairActors (by decide) (by decide) (hinit ▸ hreach) hrun).2
  exact ⟨s, a, hrun, hinit, hrounds (Frequently.of_forall hthread)⟩

theorem delivered_eventually_pair :
    ∃ (s : ℕ → ActorSystem (UInt32.toNat 2) Nat) (a : ℕ → Action (UInt32.toNat 2) Nat),
      Forever (step (.create pairActors) 2) s a ∧ ((s 0).actor "A_Field").pushed = [6] ∧
      ∃ j, [6] <+: ((s j).actor "A_Field").delivered.map Delivery.message := by
  obtain ⟨pushed, hrun₀, hpushed⟩ : ∃ pushed, run (step (.create pairActors) 2) pair pairMessages =
      some pushed ∧ (pushed.actor "A_Field").pushed = [6] := ⟨_, rfl, rfl⟩
  have hreach : Reachable (step (.create pairActors) 2) (init 2 (fun _ _ => true) fun _ => 0) pushed :=
    ⟨pairMessages, hrun₀⟩
  obtain ⟨s, a, hrun, hinit, hthread⟩ :=
    exists_forever_threads nodup_pairActors (by decide) (by decide) hreach
  rw [← hinit] at hpushed
  obtain ⟨j, -, hdelivered⟩ := delivered_eventually nodup_pairActors (by decide) (by decide)
    (hinit ▸ hreach) hrun (Frequently.of_forall hthread) (show "A_Field" ∈ pairActors by decide) 0
  exact ⟨s, a, hrun, hpushed, j, hpushed ▸ hdelivered⟩

end Theorems

end ActorSystem

end RatkiniaServer
