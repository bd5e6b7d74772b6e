import RatkiniaServer.Lib.Threads
import RatkiniaServer.Lib.Transition

/-!
# The completion port of `NetworkServer`

The IOCP workers take packets from the queue of the completion port. A slot of `AcceptPool` goes from a
call of `AcceptEx` through its completion, which is queued, into the hands of a worker, which prepares
the slot again. The destructor posts a packet without an `OVERLAPPED`, which tells the worker that takes
it to post another one and to return, and joins the workers.

A step is a call that the threads share something by: `GetQueuedCompletionStatus`, `AcceptEx`,
`PostQueuedCompletionStatus` or `join`; or a completion by the system. The queue is first in, first out.
Two calls are left open here: `PostAccept`, and what a worker does with a completion of a session. A
worker goes into such a call and comes out of it by a step of its own kind, which nothing says that it
takes: `SSL_accept` waits for the client, and both calls may wait for `sessionsMutex_`. The steps in which
a `CRASH_COND` fires are left out.
-/

namespace RatkiniaServer

namespace CompletionPort

/-- What is queued: the completion of an `AcceptEx` of a slot, a completion of a session, or the packet
without an `OVERLAPPED`. -/
inductive Packet (m : Nat) where
  | accept (slot : Fin m) (success : Bool)
  | io
  | shutdown
deriving DecidableEq, Repr

/-- Where a worker is in `WorkerThreadBody`. -/
inductive WorkerPc (m : Nat) where
  /-- at `GetQueuedCompletionStatus` -/
  | waiting
  /-- with the completion of an `AcceptEx` -/
  | accepted (slot : Fin m) (success : Bool)
  /-- in `PostAccept` -/
  | postAccept (slot : Fin m)
  /-- at `PrepareAcceptSlot` -/
  | preparing (slot : Fin m)
  /-- with a completion of a session -/
  | handling
  /-- at `PostQueuedCompletionStatus`, before the loop is left -/
  | leaving
  | returned
deriving DecidableEq, Repr

/-- Where the thread is that constructs and destroys the server: at a slot of the loop over
`AcceptPool`, between constructor and destructor, at a `join`, or behind the joins. -/
inductive OwnerPc where
  | acceptPool (slot : Nat)
  | running
  | joining (thread : Nat)
  | joined
deriving DecidableEq, Repr

end CompletionPort

/-- The completion port with `n` workers and `m` slots. Sockets are numbered in the order of their
creation. -/
structure CompletionPort (n m : Nat) where
  queue : List (CompletionPort.Packet m)
  worker : Fin n → CompletionPort.WorkerPc m
  owner : CompletionPort.OwnerPc
  /-- An `AcceptEx` with the slot is in flight. -/
  inFlight : Fin m → Bool
  /-- The socket in the `AcceptData` of a slot. -/
  clientSocket : Fin m → Nat
  /-- The number of calls of `socket`. -/
  created : Nat
  /-- The sockets that have been passed to `PostAccept`. -/
  handedOver : List Nat
  /-- The sockets of calls of `AcceptEx` that have failed: nothing refers to them any longer, and they
  have not been closed. -/
  lost : List Nat

namespace CompletionPort

variable {n m : Nat}

/-- The workers have been started, and no slot has been prepared. -/
def init : CompletionPort n m where
  queue := []
  worker _ := .waiting
  owner := .acceptPool 0
  inFlight _ := false
  clientSocket _ := 0
  created := 0
  handedOver := []
  lost := []

/-- The worker `t` goes on at `p`. -/
def goto (s : CompletionPort n m) (t : Fin n) (p : WorkerPc m) : CompletionPort n m :=
  { s with worker := Function.update s.worker t p }

/-- `PostQueuedCompletionStatus`, or a completion by the system. -/
def post (s : CompletionPort n m) (packet : Packet m) : CompletionPort n m :=
  { s with queue := s.queue ++ [packet] }

/-- `PrepareAcceptSlot`. -/
def prepareAcceptSlot (s : CompletionPort n m) (slot : Fin m) : CompletionPort n m :=
  { s with
    clientSocket := Function.update s.clientSocket slot s.created
    created := s.created + 1
    inFlight := Function.update s.inFlight slot true }

/-- Where a worker goes with a packet. -/
def branch : Packet m → WorkerPc m
  | .accept slot success => .accepted slot success
  | .io => .handling
  | .shutdown => .leaving

/-- `WorkerThreadBody`. -/
def stepWorker (s : CompletionPort n m) (t : Fin n) : Option (CompletionPort n m) :=
  match s.worker t with
  | .waiting =>
    match s.queue with
    | [] => none
    | packet :: queue => some { s.goto t (branch packet) with queue := queue }
  | .accepted slot true =>
    some { s.goto t (.postAccept slot) with
      handedOver := s.handedOver ++ [s.clientSocket slot] }
  | .accepted slot false =>
    some { s.goto t (.preparing slot) with lost := s.lost ++ [s.clientSocket slot] }
  | .postAccept _ => none
  | .preparing slot => some ((s.prepareAcceptSlot slot).goto t .waiting)
  | .handling => none
  | .leaving => some ((s.post .shutdown).goto t .returned)
  | .returned => none

/-- The call that the worker `t` is in returns. -/
def callReturns (s : CompletionPort n m) (t : Fin n) : Option (CompletionPort n m) :=
  match s.worker t with
  | .postAccept slot => some (s.goto t (.preparing slot))
  | .handling => some (s.goto t .waiting)
  | _ => none

/-- The loop of the constructor over `AcceptPool`, and the destructor. -/
def stepOwner (s : CompletionPort n m) : Option (CompletionPort n m) :=
  match s.owner with
  | .acceptPool i =>
    if h : i < m then some { s.prepareAcceptSlot ⟨i, h⟩ with owner := .acceptPool (i + 1) }
    else some { s with owner := .running }
  | .running => some { s.post .shutdown with owner := .joining 0 }
  | .joining t =>
    if h : t < n then
      if s.worker ⟨t, h⟩ = .returned then some { s with owner := .joining (t + 1) } else none
    else some { s with owner := .joined }
  | .joined => none

inductive Action (n m : Nat) where
  | worker (t : Fin n)
  | owner
  | callReturns (t : Fin n)
  /-- an `AcceptEx` completes, with a connection or with an error -/
  | acceptCompletes (slot : Fin m) (success : Bool)
  /-- an operation of a session completes, or is posted -/
  | ioCompletes
deriving DecidableEq, Repr

def step (s : CompletionPort n m) : Action n m → Option (CompletionPort n m)
  | .worker t => s.stepWorker t
  | .owner => s.stepOwner
  | .callReturns t => s.callReturns t
  | .acceptCompletes slot success =>
    if s.inFlight slot then
      some { s.post (.accept slot success) with inFlight := Function.update s.inFlight slot false }
    else none
  | .ioCompletes => some (s.post .io)

/-- The number of slots that have been prepared before. -/
def prepared (s : CompletionPort n m) : Nat :=
  match s.owner with
  | .acceptPool i => i
  | _ => m

/-- The worker is in a call that may block. -/
def WorkerPc.inCall : WorkerPc m → Bool
  | .postAccept _ | .handling => true
  | _ => false

/-- The destructor has posted its packet. -/
def ShuttingDown (s : CompletionPort n m) : Prop :=
  match s.owner with
  | .joining _ | .joined => True
  | _ => False

end CompletionPort

end RatkiniaServer
