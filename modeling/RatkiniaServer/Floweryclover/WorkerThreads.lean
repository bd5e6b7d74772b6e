import RatkiniaServer.Floweryclover.ParallelExecutor

/-!
# `ParallelForWorkerThreads`

Every worker thread of a `ParallelExecutor` runs the task once, and stores the value that it returns in
its page. The steps are those of `ParallelFor`, but a worker thread does all of its work in one: it
touches nothing but its own result.
-/

namespace RatkiniaServer.Floweryclover.ParallelExecutor

open Ring

namespace WorkerThreads

/-- Where a worker thread is: at its wait for the flag or behind `work_`. `overrun` is where `memcpy`
has written past the end of the page, which is undefined behaviour. -/
inductive TaskPc
  | waiting
  | finishing
  | overrun
  deriving DecidableEq

/-- Where `ParallelForWorkerThreads` is: in its first loop before the condition or before the store to
`WorkingFlag`, in its second loop, or behind it. The loops count in an `int`, and `overflow` is where one
overflows, which is undefined behaviour. -/
inductive LoopPc
  | reset (threadId : Nat)
  | notify (threadId : Nat)
  | wait (threadId : Nat)
  | returned
  | overflow
  deriving DecidableEq

/-- A worker thread with its context and its result. -/
structure TaskWorker where
  pc : TaskPc
  workingFlag : Bool
  result : WorkerThreadResult

structure State (WorkerThreadCount : Nat) where
  main : LoopPc
  worker : Fin WorkerThreadCount → TaskWorker

/-- `++threadId`. -/
def LoopPc.increment (pc : Nat → LoopPc) (threadId : Nat) : LoopPc :=
  if threadId + 1 < 2 ^ 31 then pc (threadId + 1) else .overflow

section Steps

variable {R : Type} {WorkerThreadCount : Nat} (copyable : TriviallyCopyable R) (baseSize : Nat)
  (task : Fin WorkerThreadCount → Option R) (s : State WorkerThreadCount)

/-- `work_`, with what the task returns on this thread; `none` if the loop of `ExtendPageAtLeast` does
not end or `memcpy` writes past the end of the page. -/
def store (r : WorkerThreadResult) : Option R → Option WorkerThreadResult
  | none => some r
  | some result =>
    (WorkerThreadResult.extendPageAtLeast baseSize copyable.size copyable.size r).bind fun r =>
      let offset := copyable.size
      if offset + copyable.size ≤ r.pageSize then
        some { r with page := write r.page offset (copyable.toBytes result), elementCount := 1 }
      else none

/-- A step of the thread that has called `ParallelForWorkerThreads`; `threadId` counts from 1. -/
def stepMain : Option (State WorkerThreadCount) :=
  match s.main with
  | .reset threadId =>
    if h : threadId - 1 < WorkerThreadCount then
      let w := s.worker ⟨threadId - 1, h⟩
      some
        { main := .notify threadId
          worker := Function.update s.worker ⟨threadId - 1, h⟩
            { w with result := { w.result with elementCount := 0 } } }
    else some { s with main := .wait 1 }
  | .notify threadId =>
    if h : threadId - 1 < WorkerThreadCount then
      let w := s.worker ⟨threadId - 1, h⟩
      some
        { main := .increment .reset threadId
          worker := Function.update s.worker ⟨threadId - 1, h⟩ { w with workingFlag := true } }
    else none
  | .wait threadId =>
    if h : threadId - 1 < WorkerThreadCount then
      if (s.worker ⟨threadId - 1, h⟩).workingFlag = false then
        some { s with main := .increment .wait threadId }
      else none
    else some { s with main := .returned }
  | .returned | .overflow => none

/-- `work_` on a worker thread. -/
def TaskWorker.work (w : TaskWorker) (result : Option R) : TaskWorker :=
  match store copyable baseSize w.result result with
  | some r => { w with pc := .finishing, result := r }
  | none => { w with pc := .overrun }

/-- A step of a worker thread in `WorkerThreadBody`. -/
def stepWorker (t : Fin WorkerThreadCount) : Option (State WorkerThreadCount) :=
  let w := s.worker t
  match w.pc with
  | .waiting =>
    if w.workingFlag then
      some { s with worker := Function.update s.worker t (w.work copyable baseSize (task t)) }
    else none
  | .finishing =>
    some { s with
      worker := Function.update s.worker t { w with pc := .waiting, workingFlag := false } }
  | .overrun => none

/-- A step. -/
def step : Action WorkerThreadCount → Option (State WorkerThreadCount)
  | .main => stepMain s
  | .worker t => stepWorker copyable baseSize task s t

end Steps

/-- `ParallelForWorkerThreads` has been called, on an executor that may have been used before: no worker
works, and the pages are as they may be. -/
def called {WorkerThreadCount : Nat} (results : Fin WorkerThreadCount → WorkerThreadResult) :
    State WorkerThreadCount :=
  ⟨.reset 1, fun t => ⟨.waiting, false, results t⟩⟩

/-- The results of all threads, as `ParallelForWorkerThreads` returns them. -/
def State.threadResults {WorkerThreadCount : Nat} (s : State WorkerThreadCount) :
    List WorkerThreadResult :=
  (List.finRange WorkerThreadCount).map fun t => (s.worker t).result

end WorkerThreads

end RatkiniaServer.Floweryclover.ParallelExecutor
