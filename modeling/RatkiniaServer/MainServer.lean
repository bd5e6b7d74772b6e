import RatkiniaServer.Lib.Threads
import RatkiniaServer.Lib.Transition

/-!
# The main server: rounds of actor runs

`MainServer::Run` starts a round by incrementing a version; `WorkerThreadBody`, run by each of the
worker threads, joins the round of its desired version, draws indices from a shared counter, runs the
actor of each index and counts down when there is no actor of its index. The thread that counts down
to zero wakes the main thread up.

Every atomic or locked operation is one step. A wait on a condition variable is a step that is enabled
where its predicate holds: a notification only makes a thread look at the predicate again.
-/

namespace RatkiniaServer.MainServer

/-- What happens in a round, in order. -/
inductive Event where
  /-- worker `t` left its wait for the version -/
  | joined (t : Nat)
  /-- a call of the actor's `Run` started -/
  | started (actor : Nat)
  /-- a call of the actor's `Run` returned -/
  | finished (actor : Nat)
  /-- worker `t` decremented `workingThreadCount_` -/
  | decremented (t : Nat)
  /-- the main thread left its wait -/
  | left
deriving DecidableEq, Repr

/-- The next operation of `Run`. -/
inductive MainPc where
  | storeCount
  | storeIndex
  | increment
  | wait
  | sleep
deriving DecidableEq, Repr

/-- The next operation of `WorkerThreadBody`. -/
inductive WorkerPc where
  /-- the wait for `desiredVersion` -/
  | waiting
  /-- `workIndex_.fetch_add(1)` -/
  | fetching
  /-- `ActorRegistry->Get(workIndex)` -/
  | fetched (workIndex : UInt32)
  /-- the return of `actor->Run()` -/
  | running (actor : Nat)
  /-- `mainThreadShouldWakeup_ = true` -/
  | waking
  /-- `++desiredVersion` -/
  | leaving
deriving DecidableEq, Repr

structure Worker where
  pc : WorkerPc
  desiredVersion : UInt32
deriving DecidableEq, Repr

/-- The shared variables, the `n` worker threads and, newest first, the rounds so far. -/
structure State (n : Nat) where
  workerThreadsWorkVersion : UInt32
  mainThreadShouldWakeup : Bool
  workingThreadCount : UInt32
  workIndex : UInt32
  main : MainPc
  worker : Fin n → Worker
  rounds : List (List Event)

inductive Action (n : Nat) where
  | main
  | worker (t : Fin n)
deriving DecidableEq, Repr

/-- `ActorRegistry::Get` where `actorCount` actors are registered: the actor at an index, or none past
the end. -/
def get (actorCount : Nat) (workIndex : UInt32) : Option Nat :=
  if workIndex.toNat < actorCount then some workIndex.toNat else none

/-- An event of the newest round. -/
def record (e : Event) : List (List Event) → List (List Event)
  | [] => [[e]]
  | r :: rs => (r ++ [e]) :: rs

/-- The constructor: the worker threads are created with `desiredVersion = 1`. -/
def init (WorkerThreadsCount : UInt32) : State WorkerThreadsCount.toNat where
  workerThreadsWorkVersion := 0
  mainThreadShouldWakeup := false
  workingThreadCount := WorkerThreadsCount
  workIndex := 0
  main := .storeCount
  worker _ := { pc := .waiting, desiredVersion := 1 }
  rounds := []

/-- `MainServer::Run`. -/
def stepMain (WorkerThreadsCount : UInt32) {n : Nat} (s : State n) : Option (State n) :=
  match s.main with
  | .storeCount => some { s with main := .storeIndex, workingThreadCount := WorkerThreadsCount }
  | .storeIndex => some { s with main := .increment, workIndex := 0 }
  | .increment =>
    some { s with
      main := .wait
      workerThreadsWorkVersion := s.workerThreadsWorkVersion + 1
      rounds := [] :: s.rounds }
  | .wait =>
    if s.mainThreadShouldWakeup = true then
      some { s with
        main := .sleep
        mainThreadShouldWakeup := false
        rounds := record .left s.rounds }
    else none
  | .sleep => some { s with main := .storeCount }

def State.setWorker {n : Nat} (s : State n) (t : Fin n) (w : Worker) : State n :=
  { s with worker := Function.update s.worker t w }

/-- `MainServer::WorkerThreadBody`. The index of an actor is looked up in the step that uses what the
lookup returns: nothing that it reads changes. -/
def stepWorker (actorCount : Nat) {n : Nat} (s : State n) (t : Fin n) : Option (State n) :=
  let w := s.worker t
  match w.pc with
  | .waiting =>
    if s.workerThreadsWorkVersion = w.desiredVersion then
      some { s.setWorker t { w with pc := .fetching } with rounds := record (.joined t) s.rounds }
    else none
  | .fetching =>
    some { s.setWorker t { w with pc := .fetched s.workIndex } with workIndex := s.workIndex + 1 }
  | .fetched workIndex =>
    match get actorCount workIndex with
    | some actor =>
      some { s.setWorker t { w with pc := .running actor } with
        rounds := record (.started actor) s.rounds }
    | none =>
      -- `fetch_sub` returns the count before it
      some { s.setWorker t { w with pc := if s.workingThreadCount = 1 then .waking else .leaving } with
        workingThreadCount := s.workingThreadCount - 1
        rounds := record (.decremented t) s.rounds }
  | .running actor =>
    some { s.setWorker t { w with pc := .fetching } with rounds := record (.finished actor) s.rounds }
  | .waking => some { s.setWorker t { w with pc := .leaving } with mainThreadShouldWakeup := true }
  | .leaving =>
    some (s.setWorker t { pc := .waiting, desiredVersion := w.desiredVersion + 1 })

def step (actorCount : Nat) (WorkerThreadsCount : UInt32) {n : Nat} (s : State n) :
    Action n → Option (State n)
  | .main => stepMain WorkerThreadsCount s
  | .worker t => stepWorker actorCount s t

/-- The states that a run of the server leads to. -/
def run (actorCount : Nat) (WorkerThreadsCount : UInt32)
    (as : List (Action WorkerThreadsCount.toNat)) : Option (State WorkerThreadsCount.toNat) :=
  Transition.run (step actorCount WorkerThreadsCount) (init WorkerThreadsCount) as

/-! ## Rounds -/

/-- A round of `n` workers as it should be: every worker joined once and counted down once, every
actor was started once and finished, and then the main thread left its wait. -/
def Complete (actorCount n : Nat) (r : List Event) : Prop :=
  ∃ body, r = body ++ [.left] ∧ Event.left ∉ body ∧
    (∀ i, body.count (.started i) = if i < actorCount then 1 else 0) ∧
    (∀ i, body.count (.finished i) = if i < actorCount then 1 else 0) ∧
    (∀ t, t < n → body.count (.joined t) = 1) ∧
    (∀ t, t < n → body.count (.decremented t) = 1)

/-- A round of `n` workers that is not over: no worker joined or counted down twice, no actor was
started twice, and the main thread did not leave its wait. -/
def Ongoing (n : Nat) (r : List Event) : Prop :=
  Event.left ∉ r ∧
    (∀ i, r.count (.started i) ≤ 1) ∧
    (∀ i, r.count (.finished i) ≤ r.count (.started i)) ∧
    (∀ t, t < n → r.count (.joined t) ≤ 1) ∧
    (∀ t, t < n → r.count (.decremented t) ≤ r.count (.joined t))

end RatkiniaServer.MainServer
