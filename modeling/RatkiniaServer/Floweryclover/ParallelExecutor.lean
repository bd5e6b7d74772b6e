import RatkiniaServer.AuthJob
import RatkiniaServer.Lib.Ring
import RatkiniaServer.Lib.Threads
import RatkiniaServer.Lib.Transition
import Mathlib.Data.List.FinRange

/-!
# `ParallelExecutor`

`ParallelFor` wakes its worker threads up and waits for them. Each of them draws chunks of indices from
`workIndex_` and runs the task on the axis of each index, until an index has no axis; the results go to
a page of its own, which grows by doubling. `ExecutionResults` iterates over the pages.

Every atomic operation is a step of its own, and so is the work on one index, which touches nothing that
is shared. Threads can be created and memory can be allocated at any time.
-/

namespace RatkiniaServer.Floweryclover

open Ring

/-- A trivially copyable type: its values are copied as `size` bytes. -/
structure TriviallyCopyable (R : Type) where
  size : Nat
  size_pos : 0 < size
  toBytes : R → Bytes
  ofBytes : Bytes → R
  length_toBytes : ∀ r, (toBytes r).length = size
  ofBytes_toBytes : ∀ r, ofBytes (toBytes r) = r

namespace ParallelExecutor

/-! ## The pages -/

structure WorkerThreadResult where
  pageSize : Nat
  elementCount : Nat
  page : Nat → UInt8

namespace WorkerThreadResult

/-- One iteration of the loop of `ExtendPageAtLeast`. -/
def extendPage (baseSize : Nat) (r : WorkerThreadResult) : WorkerThreadResult :=
  let oldSize := r.pageSize
  let newSize := if r.pageSize = 0 then baseSize else r.pageSize * 2
  { r with
    pageSize := newSize
    page := fun i => if i < oldSize then r.page i else 0 }

/-- `ExtendPageAtLeast`, up to `fuel` iterations of its loop. -/
def extendPageAtLeast (baseSize atLeast : Nat) :
    Nat → WorkerThreadResult → Option WorkerThreadResult
  | 0, r => if r.pageSize < atLeast then none else some r
  | fuel + 1, r =>
    if r.pageSize < atLeast then extendPageAtLeast baseSize atLeast fuel (r.extendPage baseSize)
    else some r

variable {R : Type} (copyable : TriviallyCopyable R)

/-- The end of the loop body of `ParallelFor`, where a result is appended; `none` if the loop of
`ExtendPageAtLeast` does not end or `memcpy` writes past the end of the page. -/
def append (baseSize : Nat) (r : WorkerThreadResult) (result : R) : Option WorkerThreadResult :=
  let atLeast := copyable.size * (r.elementCount + 1)
  (extendPageAtLeast baseSize atLeast atLeast r).bind fun r =>
    let offset := copyable.size * r.elementCount
    if offset + copyable.size ≤ r.pageSize then
      some { r with
        page := write r.page offset (copyable.toBytes result)
        elementCount := r.elementCount + 1 }
    else none

/-- The value at an index of the page. -/
def element (r : WorkerThreadResult) (i : Nat) : R :=
  copyable.ofBytes (slice r.page (i * copyable.size) copyable.size)

end WorkerThreadResult

/-! ## `ExecutionResults` -/

structure Iterator where
  currentThreadResultIndex : Nat
  currentResultElementIndex : Nat
  deriving DecidableEq

section ExecutionResults

variable {R : Type} (copyable : TriviallyCopyable R) (threadResults : List WorkerThreadResult)

/-- `operator*`, where it reads from inside of a page. -/
def Iterator.deref (it : Iterator) : Option R :=
  threadResults[it.currentThreadResultIndex]?.bind fun r =>
    if it.currentResultElementIndex * copyable.size + copyable.size ≤ r.pageSize then
      some (r.element copyable it.currentResultElementIndex)
    else none

/-- The loop of `operator++`, which has at most one iteration for each thread. -/
def Iterator.skip : Nat → Iterator → Iterator
  | 0, it => it
  | fuel + 1, it =>
    match threadResults[it.currentThreadResultIndex]? with
    | none => it
    | some r =>
      if r.elementCount ≤ it.currentResultElementIndex then
        Iterator.skip fuel ⟨(it.currentThreadResultIndex + 1) % 2 ^ 32, 0⟩
      else it

/-- `operator++`. -/
def Iterator.next (it : Iterator) : Iterator :=
  Iterator.skip threadResults threadResults.length
    { it with currentResultElementIndex := (it.currentResultElementIndex + 1) % 2 ^ 32 }

/-- The loop of `begin`. -/
def nonEmptyThreadIndex : Nat → Nat → Nat
  | 0, i => i
  | fuel + 1, i =>
    match threadResults[i]? with
    | none => i
    | some r => if r.elementCount > 0 then i else nonEmptyThreadIndex fuel ((i + 1) % 2 ^ 32)

/-- `begin`. -/
def Iterator.begin : Iterator := ⟨nonEmptyThreadIndex threadResults threadResults.length 0, 0⟩

/-- What a range based for loop iterates over, up to `fuel` iterations. `operator==` compares with
`end` by the index of the thread. -/
def iterate : Nat → Iterator → Option (List R)
  | 0, it => if threadResults.length ≤ it.currentThreadResultIndex then some [] else none
  | fuel + 1, it =>
    if threadResults.length ≤ it.currentThreadResultIndex then some []
    else
      (it.deref copyable threadResults).bind fun result =>
        (iterate fuel (it.next threadResults)).map fun results => result :: results

end ExecutionResults

/-! ## `ParallelFor` -/

/-- The arguments of `ParallelFor`. -/
structure Call (A R : Type) where
  copyable : TriviallyCopyable R
  getAxis : Nat → Option A
  task : A → Option R
  chunkSize : Nat

/-- The result of the task on the axis of an index, if any. -/
def Call.resultOf {A R : Type} (call : Call A R) (i : Nat) : Option R :=
  (call.getAxis i).bind call.task

/-- Where a worker thread is: at its wait for the flag, at the `fetch_add`, at the condition of the
loop over a chunk, or behind `work_`. -/
inductive WorkerPc
  | waiting
  | fetching
  | looping (workEnd i : Nat)
  | finishing
  deriving DecidableEq

/-- Where `ParallelFor` is: before `workIndex_` is set, in its first loop before the condition or before
the store to `WorkingFlag`, in its second loop, or behind it. The loops count in an `int`, and
`overflow` is where one overflows, which is undefined behaviour. -/
inductive MainPc
  | storeIndex
  | reset (i : Nat)
  | notify (i : Nat)
  | wait (i : Nat)
  | returned
  | overflow
  deriving DecidableEq

/-- A worker thread with its context and its result. The last two fields are a history of the call: the
indices whose axes it has given to `task`, and whether `work_` has returned. -/
structure Worker where
  pc : WorkerPc
  workingFlag : Bool
  result : WorkerThreadResult
  given : List Nat
  finished : Bool

structure State (WorkerThreadCount : Nat) where
  main : MainPc
  workIndex : Nat
  worker : Fin WorkerThreadCount → Worker

inductive Action (WorkerThreadCount : Nat)
  | main
  | worker (t : Fin WorkerThreadCount)

/-- `++i` for an `int`, in a loop of `ParallelFor`. -/
def MainPc.increment (pc : Nat → MainPc) (i : Nat) : MainPc :=
  if i + 1 < 2 ^ 31 then pc (i + 1) else .overflow

section Steps

variable {A R : Type} {WorkerThreadCount : Nat} (baseSize : Nat) (call : Call A R)
  (s : State WorkerThreadCount)

/-- A step of the thread that has called `ParallelFor`. -/
def stepMain : Option (State WorkerThreadCount) :=
  match s.main with
  | .storeIndex => some { s with main := .reset 0, workIndex := 0 }
  | .reset i =>
    if h : i < WorkerThreadCount then
      let w := s.worker ⟨i, h⟩
      some { s with
        main := .notify i
        worker := Function.update s.worker ⟨i, h⟩
          { w with result := { w.result with elementCount := 0 } } }
    else some { s with main := .wait 0 }
  | .notify i =>
    if h : i < WorkerThreadCount then
      let w := s.worker ⟨i, h⟩
      some { s with
        main := .increment .reset i
        worker := Function.update s.worker ⟨i, h⟩ { w with workingFlag := true } }
    else none
  | .wait i =>
    if h : i < WorkerThreadCount then
      if (s.worker ⟨i, h⟩).workingFlag = false then some { s with main := .increment .wait i } else none
    else some { s with main := .returned }
  | .returned | .overflow => none

/-- The body of the loop over a chunk. -/
def Worker.work (w : Worker) (workEnd i : Nat) : Option Worker :=
  match call.getAxis i with
  | none => some { w with pc := .finishing }
  | some axis =>
    let w := { w with pc := .looping workEnd ((i + 1) % 2 ^ 32), given := w.given ++ [i] }
    match call.task axis with
    | none => some w
    | some result =>
      (w.result.append call.copyable baseSize result).map fun r => { w with result := r }

/-- A step of a worker thread in `WorkerThreadBody`. `fetch_add` returns the index before it, and the
difference with `chunkSize` is one of 64 bits. -/
def stepWorker (t : Fin WorkerThreadCount) : Option (State WorkerThreadCount) :=
  let w := s.worker t
  match w.pc with
  | .waiting =>
    if w.workingFlag then
      some { s with worker := Function.update s.worker t { w with pc := .fetching } }
    else none
  | .fetching =>
    let workEnd := s.workIndex
    let workBegin := (workEnd + 2 ^ 64 - call.chunkSize) % 2 ^ 64
    some { s with
      workIndex := (s.workIndex + call.chunkSize) % 2 ^ 32
      worker := Function.update s.worker t { w with pc := .looping workEnd (workBegin % 2 ^ 32) } }
  | .looping workEnd i =>
    if i < workEnd then
      (w.work baseSize call workEnd i).map fun w =>
        { s with worker := Function.update s.worker t w }
    else some { s with worker := Function.update s.worker t { w with pc := .fetching } }
  | .finishing =>
    some { s with
      worker := Function.update s.worker t
        { w with pc := .waiting, workingFlag := false, finished := true } }

/-- A step. -/
def step : Action WorkerThreadCount → Option (State WorkerThreadCount)
  | .main => stepMain s
  | .worker t => stepWorker baseSize call s t

end Steps

/-- `ParallelFor` has been called, on an executor that may have been used before: no worker works, and
the index and the pages are as they may be. -/
structure Called {WorkerThreadCount : Nat} (s : State WorkerThreadCount) : Prop where
  main_eq : s.main = .storeIndex
  waiting : ∀ t, (s.worker t).pc = .waiting
  flag : ∀ t, (s.worker t).workingFlag = false
  given : ∀ t, (s.worker t).given = []
  unfinished : ∀ t, (s.worker t).finished = false

end ParallelExecutor

end RatkiniaServer.Floweryclover
