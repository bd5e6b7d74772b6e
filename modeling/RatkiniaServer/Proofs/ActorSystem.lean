import RatkiniaServer.ActorSystem
import RatkiniaServer.Actor.Proofs.DynamicActor
import RatkiniaServer.Proofs.MainServer

/-!
# Messages are delivered by the rounds

No two workers are in the `Run` of one actor, so what the threads do to a mailbox is a run of the
mailbox on its own. In a round the `Run` of every actor is called once; it swaps the vectors after the
round has begun and returns before the round is over, so it delivers what had been pushed before the
round.
-/

namespace RatkiniaServer

open Transition

universe u

/-! ## The registry -/

namespace ActorRegistry

theorem actorRunQueue_foldl_register (names : List String) (r : ActorRegistry) :
    (names.foldl register r).actorRunQueue = r.actorRunQueue ++ names := by
  induction names generalizing r with
  | nil => exact (List.append_nil _).symm
  | cons name names ih =>
    rw [List.foldl_cons, ih]
    exact List.append_assoc ..

theorem mem_register {r : ActorRegistry} {name other : String} :
    other ∈ (r.register name).actors ↔ other ∈ r.actors ∨ other = name := by
  unfold register
  split_ifs with hmem
  · constructor
    · exact Or.inl
    · rintro (h | rfl)
      · exact h
      · exact hmem
  · rw [List.mem_append, List.mem_singleton]

theorem mem_foldl_register {names : List String} {r : ActorRegistry} {name : String} :
    name ∈ (names.foldl register r).actors ↔ name ∈ r.actors ∨ name ∈ names := by
  induction names generalizing r with
  | nil => simp
  | cons first names ih =>
    rw [List.foldl_cons, ih, mem_register, List.mem_cons, or_assoc]

/-- The actors are run in the order of their creation. -/
@[simp] theorem actorRunQueue_create (names : List String) :
    (create names).actorRunQueue = names :=
  actorRunQueue_foldl_register names empty

/-- An actor is found by its name if it has been created. -/
@[simp] theorem mem_actors_create {names : List String} {name : String} :
    name ∈ (create names).actors ↔ name ∈ names := by
  unfold create
  rw [mem_foldl_register]
  exact or_iff_right List.not_mem_nil

end ActorRegistry

/-! ## One mailbox -/

namespace DynamicActor

variable {M : Type u} {a a' : DynamicActor M} {b : Nat}

/-- If this `Run` has swapped the vectors, at least `b` messages had been pushed before that. -/
def SwappedAfter (b : Nat) (a : DynamicActor M) : Prop :=
  match a.pc with
  | .idle | .entered | .swapping => True
  | _ => ∃ m, a.pushedBeforeSwap = some m ∧ b ≤ m

theorem SwappedAfter.pushMessage (h : SwappedAfter b a) (message : Option M) :
    SwappedAfter b (a.pushMessage message) := by
  cases message with
  | none => exact h
  | some m => exact h

/-- What a step of `Run` does to the messages, and where it leads. -/
theorem run_spec (h : Inv a) (hrun : a.run = some a') :
    a'.pushed = a.pushed ∧ a.delivered <+: a'.delivered ∧ (a'.pc = .idle ↔ a.pc = .tick) ∧
      (b ≤ a.pushed.length → SwappedAfter b a → SwappedAfter b a') := by
  have hlocal := h.here
  cases hpc : a.pc with
  | idle | beforeLoop | clearing | tick =>
    simp only [DynamicActor.run, hpc, Option.some.injEq] at hrun
    subst hrun
    simp_all [SwappedAfter]
  | entered =>
    simp only [Local, hpc] at hlocal
    simp only [DynamicActor.run, hpc, hlocal, List.isEmpty_nil, if_true, Option.some.injEq] at hrun
    subst hrun
    simp [SwappedAfter]
  | swapping =>
    simp only [DynamicActor.run, hpc, Option.some.injEq] at hrun
    subst hrun
    exact ⟨rfl, List.prefix_refl _, by simp, fun hb _ => ⟨_, rfl, hb⟩⟩
  | looping index i size =>
    simp only [DynamicActor.run, hpc] at hrun
    split_ifs at hrun with hi
    · obtain rfl := Option.some.inj hrun
      simp_all [SwappedAfter]
    · cases hget : (a.messageQueue index)[i]? with
      | none => simp [hget] at hrun
      | some x =>
        cases x with
        | none => simp [hget] at hrun
        | some m =>
          simp only [hget, Option.some.injEq] at hrun
          subst hrun
          simp_all [SwappedAfter]

/-- When `Run` returns, it has delivered what had been pushed before it swapped the vectors. -/
theorem Inv.le_delivered (h : Inv a) (htick : a.pc = .tick) (hb : SwappedAfter b a) :
    b ≤ a.delivered.length := by
  have hlocal := h.here
  simp only [Local, htick] at hlocal
  simp only [SwappedAfter, htick] at hb
  obtain ⟨m, hm, hle⟩ := hb
  rw [hlocal.2] at hm
  obtain rfl := Option.some.inj hm
  exact hle

/-- What has been delivered is the first part of what has been pushed. -/
theorem Inv.delivered_prefix (h : Inv a) : a.delivered.map Delivery.message <+: a.pushed := by
  have hprefix : (a.delivered.map fun d => some d.message) <+: a.pushed.map some := by
    rw [← h.order, List.append_assoc]
    exact List.prefix_append ..
  rw [List.prefix_iff_eq_take] at hprefix ⊢
  apply List.map_injective_iff.mpr (fun _ _ => Option.some.inj)
  rw [List.map_map, List.map_take, List.length_map]
  rw [List.length_map] at hprefix
  exact hprefix

end DynamicActor

/-! ## The server -/

namespace MainServer

variable {n actorCount : Nat} {s s' : State n} {t : Fin n}

/-- The events of the newest round. -/
def newest (rounds : List (List Event)) : List Event :=
  rounds.head?.getD []

@[simp] theorem newest_record (e : Event) (rounds : List (List Event)) :
    newest (record e rounds) = newest rounds ++ [e] := by
  cases rounds with
  | nil => rfl
  | cons r rs => rfl

/-- A step of a worker changes the place of that worker only. -/
theorem worker_stepWorker (hstep : stepWorker actorCount s t = some s') {u : Fin n} (hu : u ≠ t) :
    s'.worker u = s.worker u := by
  unfold stepWorker at hstep
  cases hpc : (s.worker t).pc with
  | waiting =>
    simp only [hpc] at hstep
    split_ifs at hstep
    obtain rfl := Option.some.inj hstep
    exact Function.update_of_ne hu _ _
  | fetched workIndex =>
    simp only [hpc] at hstep
    cases hget : get actorCount workIndex <;> simp only [hget, Option.some.injEq] at hstep <;>
      exact hstep ▸ Function.update_of_ne hu _ _
  | fetching | running actor | waking | leaving =>
    simp only [hpc, Option.some.injEq] at hstep
    exact hstep ▸ Function.update_of_ne hu _ _

/-- After its `Run` of an actor has returned, a worker fetches the next index. -/
theorem stepWorker_running (actorCount : Nat) {i : Nat} (hpc : (s.worker t).pc = .running i) :
    stepWorker actorCount s t = some { s.setWorker t { s.worker t with pc := .fetching } with
      rounds := record (.finished i) s.rounds } := by
  simp only [stepWorker, hpc]

/-- Where a step leads, a worker that was not in a `Run` may have entered one; the round does not
count a return. -/
theorem finished_stepWorker (hpc : ∀ i, (s.worker t).pc ≠ .running i)
    (hstep : stepWorker actorCount s t = some s') (i : Nat) :
    .finished i ∈ newest s'.rounds ↔ .finished i ∈ newest s.rounds := by
  unfold stepWorker at hstep
  cases h : (s.worker t).pc with
  | waiting =>
    simp only [h] at hstep
    split_ifs at hstep
    obtain rfl := Option.some.inj hstep
    simp
  | fetched workIndex =>
    simp only [h] at hstep
    cases hget : get actorCount workIndex <;> simp only [hget, Option.some.injEq] at hstep <;>
      subst hstep <;> simp
  | running actor => exact absurd h (hpc actor)
  | fetching | waking | leaving =>
    simp only [h, Option.some.injEq] at hstep
    subst hstep
    rfl

/-- A worker does not begin a round. -/
theorem Inv.rounds_stepWorker (h : Inv actorCount s) (hsize : actorCount + n ≤ 2 ^ 32)
    (hstep : MainServer.stepWorker actorCount s t = some s') :
    s'.rounds.length = s.rounds.length := by
  obtain hidle | ⟨r, rs, f, hrounds, hworking, -⟩ := h.idle_or_working
  · obtain ⟨-, -, -, hrounds, -⟩ := hidle.step hstep
    rw [hrounds]
  · obtain ⟨-, -, r', f', hrounds', -⟩ := hworking.step hrounds hsize hstep
    rw [hrounds, hrounds']
    rfl

/-- When no round is going on, every actor has returned in the newest one. -/
theorem Idle.finished (h : Idle actorCount s) (hrounds : 0 < s.rounds.length) {i : Nat}
    (hi : i < actorCount) : .finished i ∈ newest s.rounds := by
  cases hs : s.rounds with
  | nil => simp [hs] at hrounds
  | cons r rs =>
    obtain ⟨body, hr, -, -, hfinished, -⟩ := h.complete r (by simp [hs])
    have hcount := hfinished i
    rw [if_pos hi] at hcount
    have hmem : .finished i ∈ body := List.count_pos_iff.mp (by omega)
    simp [newest, hr, hmem]

/-- When no round is going on, no worker is in a `Run`. -/
theorem Idle.not_running (h : Idle actorCount s) (t : Fin n) (i : Nat) :
    (s.worker t).pc ≠ .running i := by
  intro hpc
  have hrested := h.rested t
  simp [Rested, hpc] at hrested

/-- A worker runs an actor that is registered. -/
theorem Inv.running_lt {i : Nat} (h : Inv actorCount s) (hpc : (s.worker t).pc = .running i) :
    i < actorCount := by
  obtain hidle | ⟨r, rs, f, -, hworking, -⟩ := h.idle_or_working
  · exact absurd hpc (hidle.not_running t i)
  · by_contra hge
    have hpast := hworking.draws.past i (by omega)
    have hfinished := hworking.draws.finished i
    have hruns : runs i (s.worker t) = true := by simp [runs, hpc]
    have hpos := Threads.count_pos hruns
    omega

theorem Inv.idle (h : Inv actorCount s) (hmain : s.main ≠ .wait) : Idle actorCount s := by
  have hat := h.atMain
  unfold AtMain at hat
  cases hpc : s.main with
  | wait => exact absurd hpc hmain
  | storeCount | sleep =>
    rw [hpc] at hat
    exact hat
  | storeIndex | increment =>
    rw [hpc] at hat
    exact hat.1

/-- The main thread leaves the workers where they are; it begins a round, when no round is going on,
or goes on without a return. -/
theorem Inv.stepMain_cases {WorkerThreadsCount : UInt32} (h : Inv actorCount s)
    (hstep : MainServer.stepMain WorkerThreadsCount s = some s') :
    s'.worker = s.worker ∧
      ((s'.rounds = [] :: s.rounds ∧ Idle actorCount s) ∨
        (s'.rounds.length = s.rounds.length ∧
          ∀ i, .finished i ∈ newest s'.rounds ↔ .finished i ∈ newest s.rounds)) := by
  have hat := h.atMain
  unfold AtMain at hat
  unfold MainServer.stepMain at hstep
  cases hmain : s.main with
  | storeCount | storeIndex | sleep =>
    simp only [hmain, Option.some.injEq] at hstep
    subst hstep
    exact ⟨rfl, Or.inr ⟨rfl, fun _ => Iff.rfl⟩⟩
  | increment =>
    simp only [hmain, Option.some.injEq] at hstep
    rw [hmain] at hat
    subst hstep
    exact ⟨rfl, Or.inl ⟨rfl, hat.1⟩⟩
  | wait =>
    simp only [hmain] at hstep
    rw [hmain] at hat
    obtain ⟨r, rs, f, hrounds, -, -⟩ := hat
    split_ifs at hstep
    obtain rfl := Option.some.inj hstep
    refine ⟨rfl, Or.inr ⟨?_, fun i => ?_⟩⟩
    · rw [hrounds]
      rfl
    · simp

end MainServer

/-! ## The system -/

namespace ActorSystem

variable {n : Nat} {M : Type u} {r : ActorRegistry} {WorkerThreadsCount : UInt32}
  {messageHandlers : String → UInt32 → Bool} {typeIndex : M → UInt32} {s s' : ActorSystem n M}
  {t : Fin n} {name : String} {pc : RunPc}

/-- What a worker does: it is not in a `Run`, or takes a step of the `Run` that it is in, after which
the call may return. -/
theorem stepWorker_cases (hstep : s.stepWorker r t = some s') :
    (∃ server, (∀ i, (s.server.worker t).pc ≠ .running i) ∧
      MainServer.stepWorker r.actorRunQueue.length s.server t = some server ∧
      s' = { s with server := server }) ∨
    ∃ i name a, (s.server.worker t).pc = .running i ∧ r.actorRunQueue[i]? = some name ∧
      (s.seen name (s.runPc t)).run = some a ∧
      ((a.pc ≠ .idle ∧ s' = s.setActor t name a) ∨
        (a.pc = .idle ∧ s' = { s.setActor t name a with
          server := { s.server.setWorker t { s.server.worker t with pc := .fetching } with
            rounds := MainServer.record (.finished i) s.server.rounds } })) := by
  unfold stepWorker at hstep
  cases hpc : (s.server.worker t).pc with
  | running i =>
    right
    simp only [hpc, Option.bind_eq_some_iff] at hstep
    obtain ⟨name, hname, hstep⟩ := hstep
    unfold stepRun at hstep
    obtain ⟨a, hrun, hstep⟩ := Option.bind_eq_some_iff.mp hstep
    refine ⟨i, name, a, rfl, hname, hrun, ?_⟩
    rw [MainServer.stepWorker_running _ hpc] at hstep
    cases ha : a.pc with
    | idle =>
      rw [ha] at hstep
      exact Or.inr ⟨rfl, (Option.some.inj hstep).symm⟩
    | _ =>
      rw [ha] at hstep
      exact Or.inl ⟨nofun, (Option.some.inj hstep).symm⟩
  | _ =>
    left
    simp only [hpc] at hstep
    obtain ⟨server, hserver, rfl⟩ := Option.map_eq_some_iff.mp hstep
    exact ⟨server, nofun, hserver, rfl⟩

/-- A step of `Run` is a step of the worker that is in it. -/
theorem exists_stepWorker {i : Nat} {a : DynamicActor M}
    (hpc : (s.server.worker t).pc = .running i) (hname : r.actorRunQueue[i]? = some name)
    (hrun : (s.seen name (s.runPc t)).run = some a) : ∃ s', s.stepWorker r t = some s' := by
  have hstep : s.stepWorker r t = s.stepRun r t name := by
    simp only [stepWorker, hpc, hname, Option.bind_some]
  rw [hstep]
  unfold stepRun
  rw [hrun, Option.bind_some, MainServer.stepWorker_running _ hpc]
  cases a.pc <;> exact ⟨_, rfl⟩

/-! ### The invariant -/

/-- The invariant: what has happened to the server is a run of the server, and what has happened to a
mailbox is a run of the mailbox. -/
structure Inv (r : ActorRegistry) (messageHandlers : String → UInt32 → Bool) (typeIndex : M → UInt32)
    (s : ActorSystem WorkerThreadsCount.toNat M) : Prop where
  server : Reachable (MainServer.step r.actorRunQueue.length WorkerThreadsCount)
    (MainServer.init WorkerThreadsCount) s.server
  idle : ∀ t, (∀ i, (s.server.worker t).pc ≠ .running i) → s.runPc t = .idle
  mailbox : ∀ name pc, s.RunAt r name pc →
    Reachable DynamicActor.step (DynamicActor.init (messageHandlers name) typeIndex) (s.seen name pc)

theorem inv_init : Inv r messageHandlers typeIndex
    (init WorkerThreadsCount messageHandlers typeIndex) where
  server := .refl _
  idle _ _ := rfl
  mailbox := by
    rintro name pc (⟨t, -, rfl⟩ | ⟨-, rfl⟩)
    · exact .refl _
    · exact .refl _

section Step

variable {s s' : ActorSystem WorkerThreadsCount.toNat M} {t u : Fin WorkerThreadsCount.toNat}

theorem Inv.server_inv (h : Inv r messageHandlers typeIndex s)
    (hworkers : 0 < WorkerThreadsCount.toNat)
    (hsize : r.actorRunQueue.length + WorkerThreadsCount.toNat ≤ 2 ^ 32) :
    MainServer.Inv r.actorRunQueue.length s.server :=
  h.server.elim fun _ hrun => MainServer.inv_of_run hworkers hsize hrun

/-- In the run queue, an actor has one index. -/
theorem index_unique {i j : Nat} (hnames : r.actorRunQueue.Nodup) (hi : r.actorRunQueue[i]? = some name)
    (hj : r.actorRunQueue[j]? = some name) : i = j := by
  obtain ⟨hlti, hgeti⟩ := List.getElem?_eq_some_iff.mp hi
  obtain ⟨hltj, hgetj⟩ := List.getElem?_eq_some_iff.mp hj
  exact (hnames.getElem_inj_iff).mp (hgeti.trans hgetj.symm)

/-- No two workers are in the `Run` of the actor of one name. -/
theorem Runs.alone (h : MainServer.Inv r.actorRunQueue.length s.server)
    (hnames : r.actorRunQueue.Nodup) (ht : s.Runs r t name) (hu : s.Runs r u name) : t = u := by
  obtain ⟨i, hti, hi⟩ := ht
  obtain ⟨j, huj, hj⟩ := hu
  obtain rfl := index_unique hnames hi hj
  exact h.alone hti huj

/-- An actor is at one place of its `Run`. -/
theorem exists_runAt (h : MainServer.Inv r.actorRunQueue.length s.server)
    (hnames : r.actorRunQueue.Nodup) (name : String) :
    ∃ pc, ∀ pc', s.RunAt r name pc' ↔ pc' = pc := by
  by_cases hsome : ∃ u, s.Runs r u name
  · obtain ⟨u, hu⟩ := hsome
    refine ⟨s.runPc u, fun pc' => ⟨?_, fun heq => heq ▸ Or.inl ⟨u, hu, rfl⟩⟩⟩
    rintro (⟨v, hv, rfl⟩ | ⟨hnone, -⟩)
    · rw [Runs.alone h hnames hu hv]
    · exact absurd hu (hnone u)
  · have hnone : ∀ u, ¬ s.Runs r u name := fun u hu => hsome ⟨u, hu⟩
    refine ⟨.idle, fun pc' => ⟨?_, fun heq => heq ▸ Or.inr ⟨hnone, rfl⟩⟩⟩
    rintro (⟨v, hv, -⟩ | ⟨-, rfl⟩)
    · exact absurd hv (hnone v)
    · rfl

/-- A worker is in the `Run` of one actor. -/
theorem Runs.unique {other : String} (h : s.Runs r t name) (h' : s.Runs r t other) : name = other := by
  obtain ⟨i, hpc, hi⟩ := h
  obtain ⟨j, hpc', hj⟩ := h'
  rw [hpc] at hpc'
  cases hpc'
  rw [hi] at hj
  exact Option.some.inj hj

/-- A push is a push into the mailbox. -/
theorem Inv.tryPushMessageTo (h : Inv r messageHandlers typeIndex s) (name : String)
    (message : Option M) :
    Inv r messageHandlers typeIndex (s.tryPushMessageTo r name message).2 := by
  unfold ActorSystem.tryPushMessageTo
  split_ifs with hname
  · refine ⟨h.server, h.idle, fun other pc hat => ?_⟩
    have hreached := h.mailbox other pc hat
    rcases eq_or_ne other name with rfl | hne
    · refine hreached.next (a := .pushMessage message) (congrArg some ?_)
      cases message <;> simp [seen, DynamicActor.pushMessage]
    · simpa [seen, Function.update_of_ne hne] using hreached
  · exact h

theorem Inv.stepMain {server : MainServer.State WorkerThreadsCount.toNat}
    (h : Inv r messageHandlers typeIndex s)
    (hinv : MainServer.Inv r.actorRunQueue.length s.server)
    (hstep : MainServer.stepMain WorkerThreadsCount s.server = some server) :
    Inv r messageHandlers typeIndex { s with server := server } := by
  obtain ⟨hworker, -⟩ := hinv.stepMain_cases hstep
  refine ⟨h.server.next (a := .main) hstep, fun t hpc => ?_, fun name pc hat => ?_⟩
  · rw [hworker] at hpc
    exact h.idle t hpc
  · refine h.mailbox name pc ?_
    simpa only [RunAt, Runs, hworker] using hat

/-- A worker that is not in a `Run` enters one at its beginning, and alone. -/
theorem Inv.stepOutside {server : MainServer.State WorkerThreadsCount.toNat}
    (h : Inv r messageHandlers typeIndex s) (hnames : r.actorRunQueue.Nodup)
    (hinv : MainServer.Inv r.actorRunQueue.length server)
    (hpc : ∀ i, (s.server.worker t).pc ≠ .running i)
    (hstep : MainServer.stepWorker r.actorRunQueue.length s.server t = some server) :
    Inv r messageHandlers typeIndex { s with server := server } := by
  have hother {u : Fin WorkerThreadsCount.toNat} (hu : u ≠ t) :=
    MainServer.worker_stepWorker hstep hu
  have hidle := h.idle t hpc
  refine ⟨h.server.next (a := .worker t) hstep, fun u hu => ?_, fun name pc hat => ?_⟩
  · rcases eq_or_ne u t with rfl | hne
    · exact hidle
    · refine h.idle u fun i => ?_
      rw [← hother hne]
      exact hu i
  · have hnot : ∀ u, s.Runs r u name → u ≠ t ∧ Runs r { s with server := server } u name := by
      rintro u ⟨i, hi, hname⟩
      have hne : u ≠ t := fun heq => hpc i (heq ▸ hi)
      exact ⟨hne, i, by rw [← hi]; exact congrArg MainServer.Worker.pc (hother hne), hname⟩
    refine h.mailbox name pc ?_
    rcases hat with ⟨u, hu, rfl⟩ | ⟨hnone, rfl⟩
    · rcases eq_or_ne u t with rfl | hne
      · refine Or.inr ⟨fun w hw => ?_, hidle⟩
        obtain ⟨hne, hw'⟩ := hnot w hw
        exact hne (Runs.alone (s := { s with server := server }) hinv hnames hw' hu)
      · obtain ⟨i, hi, hname⟩ := hu
        exact Or.inl ⟨u, ⟨i, by rw [← hi]; exact congrArg MainServer.Worker.pc (hother hne).symm, hname⟩, rfl⟩
    · exact Or.inr ⟨fun w hw => hnone w (hnot w hw).2, rfl⟩

theorem seen_setActor_self (s : ActorSystem n M) (t : Fin n) (name : String) (a : DynamicActor M) :
    (s.setActor t name a).seen name a.pc = a := by
  simp [seen, setActor]

theorem seen_setActor_of_ne (s : ActorSystem n M) (t : Fin n) {name other : String}
    (a : DynamicActor M) (hne : other ≠ name) (pc : RunPc) :
    (s.setActor t name a).seen other pc = s.seen other pc := by
  simp [seen, setActor, Function.update_of_ne hne]

theorem runPc_setActor_of_ne (s : ActorSystem n M) {t u : Fin n} (name : String)
    (a : DynamicActor M) (hne : u ≠ t) : (s.setActor t name a).runPc u = s.runPc u :=
  Function.update_of_ne hne _ _

/-- A worker's step of a `Run` is a step of the mailbox. -/
theorem Inv.reached {a : DynamicActor M} (h : Inv r messageHandlers typeIndex s)
    (ht : s.Runs r t name) (hrun : (s.seen name (s.runPc t)).run = some a) :
    Reachable DynamicActor.step (DynamicActor.init (messageHandlers name) typeIndex) a := by
  have hbefore := h.mailbox name _ (Or.inl ⟨t, ht, rfl⟩)
  exact hbefore.next (show DynamicActor.step _ .run = some a from hrun)

/-- A worker goes on in its `Run`. -/
theorem Inv.stepInside {a : DynamicActor M} (h : Inv r messageHandlers typeIndex s)
    (hnames : r.actorRunQueue.Nodup) (hinv : MainServer.Inv r.actorRunQueue.length s.server)
    (ht : s.Runs r t name) (hrun : (s.seen name (s.runPc t)).run = some a) :
    Inv r messageHandlers typeIndex (s.setActor t name a) := by
  have hreached := h.reached ht hrun
  refine ⟨h.server, fun u hu => ?_, fun other pc hat => ?_⟩
  · have hne : u ≠ t := by
      rintro rfl
      obtain ⟨i, hi, -⟩ := ht
      exact hu i hi
    rw [runPc_setActor_of_ne s name a hne]
    exact h.idle u hu
  · rcases eq_or_ne other name with rfl | hother
    · obtain ⟨u, hu, rfl⟩ | ⟨hnone, -⟩ := hat
      · obtain rfl := Runs.alone hinv hnames ht hu
        have hpc : (s.setActor t other a).runPc t = a.pc := Function.update_self ..
        rw [hpc, seen_setActor_self]
        exact hreached
      · exact absurd ht (hnone t)
    · rw [seen_setActor_of_ne s t a hother]
      refine h.mailbox other pc ?_
      obtain ⟨u, hu, rfl⟩ | hnone := hat
      · have hne : u ≠ t := by
          rintro rfl
          exact hother (Runs.unique (s := s) hu ht)
        exact Or.inl ⟨u, hu, (runPc_setActor_of_ne s name a hne).symm⟩
      · exact Or.inr hnone

/-- A `Run` returns. -/
theorem Inv.stepReturn {a : DynamicActor M} {i : Nat} (h : Inv r messageHandlers typeIndex s)
    (hnames : r.actorRunQueue.Nodup) (hinv : MainServer.Inv r.actorRunQueue.length s.server)
    (hpc : (s.server.worker t).pc = .running i) (hname : r.actorRunQueue[i]? = some name)
    (hrun : (s.seen name (s.runPc t)).run = some a) (ha : a.pc = .idle) :
    Inv r messageHandlers typeIndex { s.setActor t name a with
      server := { s.server.setWorker t { s.server.worker t with pc := .fetching } with
        rounds := MainServer.record (.finished i) s.server.rounds } } := by
  have ht : s.Runs r t name := ⟨i, hpc, hname⟩
  have hreached := h.reached ht hrun
  have hworker {u : Fin WorkerThreadsCount.toNat} (hu : u ≠ t) :=
    MainServer.worker_stepWorker
      (MainServer.stepWorker_running r.actorRunQueue.length hpc) hu
  refine ⟨h.server.next (a := .worker t) (MainServer.stepWorker_running _ hpc), fun u hu => ?_,
    fun other pc hat => ?_⟩
  · rcases eq_or_ne u t with rfl | hne
    · exact (Function.update_self ..).trans ha
    · refine (runPc_setActor_of_ne s name a hne).trans (h.idle u fun j => ?_)
      rw [← hworker hne]
      exact hu j
  · have hback {u : Fin WorkerThreadsCount.toNat} (hu : Runs r { s.setActor t name a with
        server := { s.server.setWorker t { s.server.worker t with pc := .fetching } with
          rounds := MainServer.record (.finished i) s.server.rounds } } u other) :
        u ≠ t ∧ s.Runs r u other := by
      obtain ⟨j, hj, hother⟩ := hu
      have hne : u ≠ t := by
        rintro rfl
        simp [MainServer.State.setWorker] at hj
      refine ⟨hne, j, ?_, hother⟩
      rw [← hworker hne]
      exact hj
    rcases eq_or_ne other name with rfl | hother
    · obtain ⟨u, hu, rfl⟩ | ⟨-, rfl⟩ := hat
      · obtain ⟨hne, hu⟩ := hback hu
        exact absurd (Runs.alone hinv hnames hu ht) hne
      · show Reachable _ _ ((s.setActor t other a).seen other .idle)
        rw [← ha, seen_setActor_self]
        exact hreached
    · show Reachable _ _ ((s.setActor t name a).seen other pc)
      rw [seen_setActor_of_ne s t a hother]
      refine h.mailbox other pc ?_
      obtain ⟨u, hu, rfl⟩ | ⟨hnone, rfl⟩ := hat
      · obtain ⟨hne, hu⟩ := hback hu
        exact Or.inl ⟨u, hu, (runPc_setActor_of_ne s name a hne).symm⟩
      · refine Or.inr ⟨fun u hu => ?_, rfl⟩
        have hne : u ≠ t := by
          rintro rfl
          exact hother (hu.unique ht)
        obtain ⟨j, hj, hget⟩ := hu
        refine hnone u ⟨j, ?_, hget⟩
        rw [← hworker hne] at hj
        exact hj

/-- Every step keeps the invariant. -/
theorem inv_step {act : Action WorkerThreadsCount.toNat M} (hworkers : 0 < WorkerThreadsCount.toNat)
    (hsize : r.actorRunQueue.length + WorkerThreadsCount.toNat ≤ 2 ^ 32)
    (hnames : r.actorRunQueue.Nodup) (h : Inv r messageHandlers typeIndex s)
    (hstep : step r WorkerThreadsCount s act = some s') : Inv r messageHandlers typeIndex s' := by
  have hinv := h.server_inv hworkers hsize
  cases act with
  | main =>
    obtain ⟨server, hserver, rfl⟩ := Option.map_eq_some_iff.mp hstep
    exact h.stepMain hinv hserver
  | worker t =>
    obtain ⟨server, hpc, hserver, rfl⟩ | ⟨i, name, a, hpc, hname, hrun, hcases⟩ :=
      stepWorker_cases hstep
    · exact h.stepOutside hnames (hinv.stepWorker hsize hserver) hpc hserver
    · obtain ⟨-, rfl⟩ | ⟨ha, rfl⟩ := hcases
      · exact h.stepInside hnames hinv ⟨i, hpc, hname⟩ hrun
      · exact h.stepReturn hnames hinv hpc hname hrun ha
  | tryPushMessageTo name message =>
    obtain rfl := Option.some.inj hstep
    exact h.tryPushMessageTo name message

/-! ### What has been pushed before a round -/

/-- The messages `ms` had been pushed to the actor at index `i` of the run queue when `k` rounds had
begun: where the `Run` of the actor has returned in a later round, they have been delivered. -/
structure Since (name : String) (i k : Nat) (ms : List M) (s : ActorSystem n M) : Prop where
  pushed : ms <+: (s.actor name).pushed
  begun : k ≤ s.server.rounds.length
  earlier : k + 1 < s.server.rounds.length → ms.length ≤ (s.actor name).delivered.length
  returned : k < s.server.rounds.length → .finished i ∈ MainServer.newest s.server.rounds →
    ms.length ≤ (s.actor name).delivered.length
  inside : k < s.server.rounds.length → ∀ t, (s.server.worker t).pc = .running i →
    DynamicActor.SwappedAfter ms.length (s.seen name (s.runPc t))

variable {i k : Nat} {ms : List M}

theorem Since.tryPushMessageTo (h : Since name i k ms s) (other : String) (message : Option M) :
    Since name i k ms (s.tryPushMessageTo r other message).2 := by
  unfold ActorSystem.tryPushMessageTo
  split_ifs
  case neg => exact h
  case pos =>
  rcases eq_or_ne name other with rfl | hne
  · cases message with
    | none =>
      have hsame : Function.update s.actor name ((s.actor name).pushMessage none) = s.actor :=
        Function.update_eq_self ..
      simp only [hsame]
      exact h
    | some m =>
      refine ⟨?_, h.begun, fun hk => ?_, fun hk hi => ?_, fun hk t hpc => ?_⟩
      · simp only [Function.update_self, DynamicActor.pushMessage]
        exact h.pushed.trans (List.prefix_append ..)
      · simpa [DynamicActor.pushMessage] using h.earlier hk
      · simpa [DynamicActor.pushMessage] using h.returned hk hi
      · have hbefore := (h.inside hk t hpc).pushMessage (some m)
        simpa [seen, DynamicActor.pushMessage] using hbefore
  · obtain ⟨hpushed, hbegun, hearlier, hreturned, hinside⟩ := h
    constructor <;> simpa [seen, Function.update_of_ne hne]

theorem Since.stepMain {server : MainServer.State WorkerThreadsCount.toNat}
    (h : Since name i k ms s) (hinv : MainServer.Inv r.actorRunQueue.length s.server)
    (hi : i < r.actorRunQueue.length)
    (hstep : MainServer.stepMain WorkerThreadsCount s.server = some server) :
    Since name i k ms { s with server := server } := by
  obtain ⟨hworker, ⟨hrounds, hidle⟩ | ⟨hlength, hfinished⟩⟩ := hinv.stepMain_cases hstep
  · have hlength : server.rounds.length = s.server.rounds.length + 1 := by
      rw [hrounds]
      rfl
    refine ⟨h.pushed, ?_, fun hk => ?_, fun hk hmem => ?_, fun hk t hpc => ?_⟩
    · exact hlength ▸ Nat.le_succ_of_le h.begun
    · have hk' : k < s.server.rounds.length := by
        simp only [hlength] at hk
        omega
      exact h.returned hk' (hidle.finished (by omega) hi)
    · simp [hrounds, MainServer.newest] at hmem
    · rw [hworker] at hpc
      exact absurd hpc (hidle.not_running t i)
  · refine ⟨h.pushed, hlength ▸ h.begun, fun hk => ?_, fun hk hmem => ?_, fun hk t hpc => ?_⟩
    · exact h.earlier (hlength ▸ hk)
    · exact h.returned (hlength ▸ hk) ((hfinished i).mp hmem)
    · rw [hworker] at hpc
      exact h.inside (hlength ▸ hk) t hpc

theorem Since.stepOutside {server : MainServer.State WorkerThreadsCount.toNat}
    (h : Since name i k ms s) (hinv : MainServer.Inv r.actorRunQueue.length s.server)
    (hsize : r.actorRunQueue.length + WorkerThreadsCount.toNat ≤ 2 ^ 32)
    (hpc : ∀ i, (s.server.worker t).pc ≠ .running i) (hidle : s.runPc t = .idle)
    (hstep : MainServer.stepWorker r.actorRunQueue.length s.server t = some server) :
    Since name i k ms { s with server := server } := by
  have hlength := hinv.rounds_stepWorker hsize hstep
  have hfinished := MainServer.finished_stepWorker hpc hstep
  refine ⟨h.pushed, hlength ▸ h.begun, fun hk => ?_, fun hk hmem => ?_, fun hk u hu => ?_⟩
  · exact h.earlier (hlength ▸ hk)
  · exact h.returned (hlength ▸ hk) ((hfinished i).mp hmem)
  · rcases eq_or_ne u t with rfl | hne
    · simp only [seen, hidle]
      trivial
    · have hother := MainServer.worker_stepWorker hstep hne
      refine h.inside (hlength ▸ hk) u ?_
      rw [← hother]
      exact hu

theorem Inv.mailbox_inv (h : Inv r messageHandlers typeIndex s) (hat : s.RunAt r name pc) :
    DynamicActor.Inv (s.seen name pc) :=
  (h.mailbox name pc hat).invariant (fun _ _ _ h hs => DynamicActor.inv_step h hs)
    (DynamicActor.inv_init _ _)

/-- The mailbox of another actor is left alone. -/
theorem actor_setActor_of_ne (s : ActorSystem n M) (t : Fin n) {other : String} (a : DynamicActor M)
    (hne : name ≠ other) : (s.setActor t other a).actor name = s.actor name :=
  Function.update_of_ne hne _ _

theorem actor_setActor_self (s : ActorSystem n M) (t : Fin n) (a : DynamicActor M) :
    (s.setActor t name a).actor name = { a with pc := .idle } :=
  Function.update_self ..

theorem Since.stepInside {j : Nat} {other : String} {a : DynamicActor M} (h : Since name i k ms s)
    (hsys : Inv r messageHandlers typeIndex s) (hnames : r.actorRunQueue.Nodup)
    (hinv : MainServer.Inv r.actorRunQueue.length s.server) (hi : r.actorRunQueue[i]? = some name)
    (hpc : (s.server.worker t).pc = .running j) (hj : r.actorRunQueue[j]? = some other)
    (hrun : (s.seen other (s.runPc t)).run = some a) : Since name i k ms (s.setActor t other a) := by
  rcases eq_or_ne name other with rfl | hne
  · obtain rfl := index_unique hnames hi hj
    have hmail := hsys.mailbox_inv (Or.inl ⟨t, ⟨i, hpc, hi⟩, rfl⟩)
    obtain ⟨hpushed, hdelivered, -, hswapped⟩ := DynamicActor.run_spec (b := ms.length) hmail hrun
    have hself : (s.setActor t name a).actor name = { a with pc := .idle } :=
      actor_setActor_self s t a
    have hle : (s.actor name).delivered.length ≤ a.delivered.length := hdelivered.length_le
    refine ⟨?_, h.begun, fun hk => ?_, fun hk hmem => ?_, fun hk u hu => ?_⟩
    · rw [hself]
      exact hpushed ▸ h.pushed
    · rw [hself]
      exact (h.earlier hk).trans hle
    · rw [hself]
      exact (h.returned hk hmem).trans hle
    · obtain rfl : u = t := hinv.alone hu hpc
      have hnow : (s.setActor u name a).runPc u = a.pc := Function.update_self ..
      rw [hnow, seen_setActor_self]
      exact hswapped h.pushed.length_le (h.inside hk u hpc)
  · have hsame := actor_setActor_of_ne s t a hne
    refine ⟨?_, h.begun, fun hk => ?_, fun hk hmem => ?_, fun hk u hu => ?_⟩
    · rw [hsame]
      exact h.pushed
    · rw [hsame]
      exact h.earlier hk
    · rw [hsame]
      exact h.returned hk hmem
    · have hut : u ≠ t := by
        rintro rfl
        obtain rfl : i = j := by simpa using hu.symm.trans hpc
        exact hne (Option.some.inj (hi.symm.trans hj))
      rw [runPc_setActor_of_ne s other a hut, seen_setActor_of_ne s t a hne]
      exact h.inside hk u hu

theorem Since.stepReturn {j : Nat} {other : String} {a : DynamicActor M} (h : Since name i k ms s)
    (hsys : Inv r messageHandlers typeIndex s) (hnames : r.actorRunQueue.Nodup)
    (hsize : r.actorRunQueue.length + WorkerThreadsCount.toNat ≤ 2 ^ 32)
    (hinv : MainServer.Inv r.actorRunQueue.length s.server) (hi : r.actorRunQueue[i]? = some name)
    (hpc : (s.server.worker t).pc = .running j) (hj : r.actorRunQueue[j]? = some other)
    (hrun : (s.seen other (s.runPc t)).run = some a) (ha : a.pc = .idle) :
    Since name i k ms { s.setActor t other a with
      server := { s.server.setWorker t { s.server.worker t with pc := .fetching } with
        rounds := MainServer.record (.finished j) s.server.rounds } } := by
  have hinside := h.stepInside hsys hnames hinv hi hpc hj hrun
  have hreturns := MainServer.stepWorker_running r.actorRunQueue.length hpc
  have hlength := hinv.rounds_stepWorker hsize hreturns
  simp only at hlength
  refine ⟨hinside.pushed, hlength ▸ h.begun, fun hk => ?_, fun hk hmem => ?_, fun hk u hu => ?_⟩
  · exact hinside.earlier (hlength ▸ hk)
  · have hk' : k < s.server.rounds.length := hlength ▸ hk
    simp only [MainServer.newest_record, List.mem_append, List.mem_singleton] at hmem
    obtain hmem | hmem := hmem
    · exact hinside.returned hk' hmem
    · obtain rfl : i = j := by simpa using hmem
      obtain rfl : name = other := Option.some.inj (hi.symm.trans hj)
      have hmail := hsys.mailbox_inv (Or.inl ⟨t, ⟨i, hpc, hi⟩, rfl⟩)
      obtain ⟨-, hdelivered, htick, -⟩ := DynamicActor.run_spec (b := 0) hmail hrun
      have hle := hmail.le_delivered (htick.mp ha) (h.inside hk' t hpc)
      show ms.length ≤ ((s.setActor t name a).actor name).delivered.length
      rw [actor_setActor_self]
      exact hle.trans hdelivered.length_le
  · have hut : u ≠ t := by
      rintro rfl
      simp [MainServer.State.setWorker] at hu
    have hother := MainServer.worker_stepWorker hreturns hut
    refine hinside.inside (hlength ▸ hk) u ?_
    rw [← hu]
    exact congrArg MainServer.Worker.pc hother.symm

theorem since_step {act : Action WorkerThreadsCount.toNat M}
    (hworkers : 0 < WorkerThreadsCount.toNat)
    (hsize : r.actorRunQueue.length + WorkerThreadsCount.toNat ≤ 2 ^ 32)
    (hnames : r.actorRunQueue.Nodup) (hi : r.actorRunQueue[i]? = some name)
    (hsys : Inv r messageHandlers typeIndex s) (h : Since name i k ms s)
    (hstep : step r WorkerThreadsCount s act = some s') : Since name i k ms s' := by
  have hinv := hsys.server_inv hworkers hsize
  cases act with
  | main =>
    obtain ⟨server, hserver, rfl⟩ := Option.map_eq_some_iff.mp hstep
    exact h.stepMain hinv (List.getElem?_eq_some_iff.mp hi).1 hserver
  | worker t =>
    obtain ⟨server, hpc, hserver, rfl⟩ | ⟨j, other, a, hpc, hj, hrun, hcases⟩ :=
      stepWorker_cases hstep
    · exact h.stepOutside hinv hsize hpc (hsys.idle t hpc) hserver
    · obtain ⟨-, rfl⟩ | ⟨ha, rfl⟩ := hcases
      · exact h.stepInside hsys hnames hinv hi hpc hj hrun
      · exact h.stepReturn hsys hnames hsize hinv hi hpc hj hrun ha
  | tryPushMessageTo other message =>
    obtain rfl := Option.some.inj hstep
    exact h.tryPushMessageTo other message

end Step

/-! ## The theorems -/

section Theorems

variable {names : List String} {s t : ActorSystem WorkerThreadsCount.toNat M}

theorem inv_of_reachable (hnames : names.Nodup) (hworkers : 0 < WorkerThreadsCount.toNat)
    (hsize : names.length + WorkerThreadsCount.toNat ≤ 2 ^ 32)
    (hs : Reachable (step (.create names) WorkerThreadsCount)
      (init WorkerThreadsCount messageHandlers typeIndex) s) :
    Inv (.create names) messageHandlers typeIndex s := by
  refine hs.invariant (fun s act s' h hstep => inv_step hworkers ?_ ?_ h hstep) inv_init
  · rw [ActorRegistry.actorRunQueue_create]
    exact hsize
  · rw [ActorRegistry.actorRunQueue_create]
    exact hnames

/-- **The system refines its parts.** In every state that the workers, the main thread and the pushes
lead to: the rounds are those of a run of the server on its own; at most one worker is in the `Run` of
the actor of a name, so that the actor is at one place of its `Run`, and its mailbox has got there by a
run of its own; and no worker is stuck inside a `Run`. -/
theorem refines_parts (hnames : names.Nodup) (hworkers : 0 < WorkerThreadsCount.toNat)
    (hsize : names.length + WorkerThreadsCount.toNat ≤ 2 ^ 32)
    (hs : Reachable (step (.create names) WorkerThreadsCount)
      (init WorkerThreadsCount messageHandlers typeIndex) s) :
    Reachable (MainServer.step names.length WorkerThreadsCount) (MainServer.init WorkerThreadsCount)
      s.server ∧
    (∀ name, ∃ pc, (∀ pc', s.RunAt (.create names) name pc' ↔ pc' = pc) ∧
      Reachable DynamicActor.step (DynamicActor.init (messageHandlers name) typeIndex)
        (s.seen name pc)) ∧
    ∀ u i, (s.server.worker u).pc = .running i → ∃ s', s.stepWorker (.create names) u = some s' := by
  have h := inv_of_reachable hnames hworkers hsize hs
  have hqueue := ActorRegistry.actorRunQueue_create names
  have hinv := h.server_inv hworkers (hqueue.symm ▸ hsize)
  have hnodup : (ActorRegistry.create names).actorRunQueue.Nodup := hqueue.symm ▸ hnames
  refine ⟨hqueue ▸ h.server, fun name => ?_, fun u i hpc => ?_⟩
  · obtain ⟨pc, hat⟩ := exists_runAt hinv hnodup name
    exact ⟨pc, hat, h.mailbox name pc ((hat pc).mpr rfl)⟩
  · have hlt : i < names.length := by
      have := hinv.running_lt hpc
      rwa [hqueue] at this
    have hname : (ActorRegistry.create names).actorRunQueue[i]? = some names[i] := by
      rw [hqueue]
      exact List.getElem?_eq_getElem hlt
    have hmail := h.mailbox_inv (Or.inl ⟨u, ⟨i, hpc, hname⟩, rfl⟩)
    obtain ⟨a, hrun, -⟩ := hmail.run
    exact exists_stepWorker hpc hname hrun

/-- The messages delivered to an actor are the first of those pushed to it, each to the handler of its
type. -/
theorem delivered_spec (hnames : names.Nodup) (hworkers : 0 < WorkerThreadsCount.toNat)
    (hsize : names.length + WorkerThreadsCount.toNat ≤ 2 ^ 32)
    (hs : Reachable (step (.create names) WorkerThreadsCount)
      (init WorkerThreadsCount messageHandlers typeIndex) s) (name : String) :
    (s.actor name).delivered.map Delivery.message <+: (s.actor name).pushed ∧
      ∀ d ∈ (s.actor name).delivered, d = (s.actor name).deliver d.message := by
  have hqueue := ActorRegistry.actorRunQueue_create names
  have hsys := inv_of_reachable hnames hworkers hsize hs
  have hinv := hsys.server_inv hworkers (hqueue.symm ▸ hsize)
  obtain ⟨pc, hat⟩ := exists_runAt hinv (hqueue.symm ▸ hnames) name
  have hmail := hsys.mailbox_inv ((hat pc).mpr rfl)
  exact ⟨hmail.delivered_prefix, hmail.handlers⟩

/-- Where a round has begun since state `s` and is over in state `t`, or two have begun, an actor has
been passed as many messages as had been pushed to it in `s`. -/
theorem length_pushed_le_delivered (hnames : names.Nodup) (hworkers : 0 < WorkerThreadsCount.toNat)
    (hsize : names.length + WorkerThreadsCount.toNat ≤ 2 ^ 32)
    (hs : Reachable (step (.create names) WorkerThreadsCount)
      (init WorkerThreadsCount messageHandlers typeIndex) s)
    (ht : Reachable (step (.create names) WorkerThreadsCount) s t)
    (hover : s.server.rounds.length + 1 < t.server.rounds.length ∨
      (s.server.rounds.length < t.server.rounds.length ∧ t.server.main ≠ .wait))
    (hname : name ∈ names) :
    (s.actor name).pushed <+: (t.actor name).pushed ∧
      (s.actor name).pushed.length ≤ (t.actor name).delivered.length := by
  have hqueue := ActorRegistry.actorRunQueue_create names
  obtain ⟨i, hlt, hget⟩ := List.mem_iff_getElem.mp hname
  have hi : (ActorRegistry.create names).actorRunQueue[i]? = some name := by
    rw [hqueue, List.getElem?_eq_getElem hlt, hget]
  have hsys := inv_of_reachable hnames hworkers hsize hs
  have hsince : Since name i s.server.rounds.length (s.actor name).pushed s :=
    ⟨List.prefix_refl _, Nat.le_refl _, fun hk => absurd hk (by omega), fun hk => absurd hk (by omega),
      fun hk => absurd hk (by omega)⟩
  obtain ⟨hsys', hsince'⟩ : Inv (.create names) messageHandlers typeIndex t ∧
      Since name i s.server.rounds.length (s.actor name).pushed t := by
    refine ht.invariant (P := fun t => Inv (.create names) messageHandlers typeIndex t ∧
      Since name i s.server.rounds.length (s.actor name).pushed t)
      (fun t act t' h hstep => ⟨?_, ?_⟩) ⟨hsys, hsince⟩
    · exact inv_step hworkers (hqueue.symm ▸ hsize) (hqueue.symm ▸ hnames) h.1 hstep
    · exact since_step hworkers (hqueue.symm ▸ hsize) (hqueue.symm ▸ hnames) hi h.1 h.2 hstep
  have hinv := hsys'.server_inv hworkers (hqueue.symm ▸ hsize)
  refine ⟨hsince'.pushed, ?_⟩
  obtain hlong | ⟨hbegun, hmain⟩ := hover
  · exact hsince'.earlier hlong
  · refine hsince'.returned hbegun ((hinv.idle hmain).finished (by omega) ?_)
    rw [hqueue]
    exact hlt

/-- **Every message is delivered, once and in order, by the end of the next round.** Where a round has
begun since state `s` and is over in state `t`, or two have begun, every actor has been passed the
messages that had been pushed to it in `s`: they are the first of those delivered, which are the first
of those pushed, and each went to the handler of its type or, if there is none, to
`OnUnknownMessageReceived`. -/
theorem delivered_within_next_round (hnames : names.Nodup) (hworkers : 0 < WorkerThreadsCount.toNat)
    (hsize : names.length + WorkerThreadsCount.toNat ≤ 2 ^ 32)
    (hs : Reachable (step (.create names) WorkerThreadsCount)
      (init WorkerThreadsCount messageHandlers typeIndex) s)
    (ht : Reachable (step (.create names) WorkerThreadsCount) s t)
    (hover : s.server.rounds.length + 1 < t.server.rounds.length ∨
      (s.server.rounds.length < t.server.rounds.length ∧ t.server.main ≠ .wait))
    (hname : name ∈ names) :
    (s.actor name).pushed <+: (t.actor name).delivered.map Delivery.message ∧
      (t.actor name).delivered.map Delivery.message <+: (t.actor name).pushed ∧
      ∀ d ∈ (t.actor name).delivered, d = (t.actor name).deliver d.message := by
  obtain ⟨hpushed, hle⟩ := length_pushed_le_delivered hnames hworkers hsize hs ht hover hname
  obtain ⟨hdelivered, hhandlers⟩ := delivered_spec hnames hworkers hsize (hs.trans ht) name
  refine ⟨List.prefix_of_prefix_length_le hpushed hdelivered ?_, hdelivered, hhandlers⟩
  rw [List.length_map]
  exact hle

/-- A server with two workers. -/
def pair : ActorSystem (UInt32.toNat 2) Nat :=
  init 2 (fun _ _ => true) fun _ => 0

/-- Its actors. -/
def pairActors : List String := ["A_Auth", "A_Field"]

theorem nodup_pairActors : pairActors.Nodup := by
  decide

/-- A message for either of them. -/
def pairMessages : List (Action (UInt32.toNat 2) Nat) :=
  [.tryPushMessageTo "A_Auth" (some 5), .tryPushMessageTo "A_Field" (some 6)]

/-- The workers run one round, in which they take turns. -/
def pairRound : List (Action (UInt32.toNat 2) Nat) :=
  let first := Action.worker ⟨0, Nat.two_pos⟩
  let second := Action.worker ⟨1, Nat.one_lt_two⟩
  [.main, .main, .main] ++ (List.replicate 13 [first, second]).flatten ++ [second, .main]

theorem refines_parts_pairRound :
    ∃ s, Transition.run (step (.create pairActors) 2) pair (pairMessages ++ pairRound) = some s ∧
      Reachable (MainServer.step 2 2) (MainServer.init 2) s.server ∧ s.server.main = .sleep :=
  ⟨_, rfl, (refines_parts nodup_pairActors (by decide) (by decide)
    (show Reachable _ pair _ from ⟨pairMessages ++ pairRound, rfl⟩)).1, rfl⟩

/-- The round delivers the messages that arrived before it. -/
theorem delivered_within_next_round_pairRound :
    ∃ s t, Transition.run (step (.create pairActors) 2) pair pairMessages = some s ∧
      Transition.run (step (.create pairActors) 2) s pairRound = some t ∧
      [5] <+: (t.actor "A_Auth").delivered.map Delivery.message ∧
      [6] <+: (t.actor "A_Field").delivered.map Delivery.message := by
  obtain ⟨s, t, hs, ht, hauth, hfield, hbegun, hmain⟩ : ∃ s t,
      Transition.run (step (.create pairActors) 2) pair pairMessages = some s ∧
      Transition.run (step (.create pairActors) 2) s pairRound = some t ∧
      (s.actor "A_Auth").pushed = [5] ∧ (s.actor "A_Field").pushed = [6] ∧
      s.server.rounds.length < t.server.rounds.length ∧ t.server.main ≠ .wait :=
    ⟨_, _, rfl, rfl, rfl, rfl, by decide, by decide⟩
  have hdelivered {name : String} (hname : name ∈ pairActors) :
      (s.actor name).pushed <+: (t.actor name).delivered.map Delivery.message :=
    (delivered_within_next_round nodup_pairActors (by decide) (by decide)
      (show Reachable _ pair s from ⟨pairMessages, hs⟩) ⟨pairRound, ht⟩ (Or.inr ⟨hbegun, hmain⟩)
      hname).1
  exact ⟨s, t, hs, ht, hauth ▸ hdelivered (by decide), hfield ▸ hdelivered (by decide)⟩

end Theorems

end ActorSystem

end RatkiniaServer
