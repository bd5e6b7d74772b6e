import RatkiniaServer.Lib.Threads
import RatkiniaServer.Lib.Transition

/-!
# `DbConnectionPool`

Any number of threads acquire connections and release them again, and each has one at a time: `Acquire`
waits on a condition variable until there is a connection, and the destructor of `DbConnection` calls
`Release`. A step is a critical section of `mutex_`. To fall asleep on the condition variable and to
unlock the mutex is one step, as `wait` promises; a thread that has been notified locks the mutex again
and looks at the predicate. A thread may wake up without a notification.
-/

namespace RatkiniaServer

namespace DbConnectionPool

/-- Where a thread is. -/
inductive Pc where
  | outside
  /-- in `Acquire`, before `mutex_` is locked -/
  | locking
  /-- in `conditionVariable_.wait`, asleep -/
  | sleeping
  /-- in `conditionVariable_.wait`, awake, before `mutex_` is locked again -/
  | notified
  /-- with a `DbConnection` -/
  | holding (connection : Nat)
deriving DecidableEq, Repr

end DbConnectionPool

/-- A pool of which `n` threads make use; a connection stands here as a number. -/
structure DbConnectionPool (n : Nat) where
  connections : List Nat
  pc : Fin n → DbConnectionPool.Pc

namespace DbConnectionPool

variable {n : Nat}

/-- The constructor. Its loop counts in an `int`, so there are fewer than 2³¹ connections. -/
def init (maxConnections : Nat) : DbConnectionPool n where
  connections := List.range maxConnections
  pc _ := .outside

inductive Action (n : Nat) where
  /-- a call of `Acquire` -/
  | acquire (t : Fin n)
  /-- the evaluation of the predicate of `wait`, and what follows it -/
  | lock (t : Fin n)
  /-- the call of `Release` by the destructor; `notify_one` wakes up a thread that is asleep, if there
  is one -/
  | release (t : Fin n) (woken : Option (Fin n))
  /-- a wakeup without a notification -/
  | wakeup (t : Fin n)
deriving DecidableEq, Repr

/-- The thread `t` goes on at `p`. -/
def goto (s : DbConnectionPool n) (t : Fin n) (p : Pc) : DbConnectionPool n :=
  { s with pc := Function.update s.pc t p }

/-- The critical section of `Acquire`: it takes the last connection, or falls asleep. -/
def take (s : DbConnectionPool n) (t : Fin n) : DbConnectionPool n :=
  match s.connections.getLast? with
  | some connection => { s.goto t (.holding connection) with connections := s.connections.dropLast }
  | none => s.goto t .sleeping

/-- `Release`, up to the notification. -/
def release (s : DbConnectionPool n) (t : Fin n) (connection : Nat) : DbConnectionPool n :=
  { s.goto t .outside with connections := s.connections ++ [connection] }

/-- `conditionVariable_.notify_one`: nothing, if no thread is asleep. -/
def notifyOne (s : DbConnectionPool n) : Option (Fin n) → Option (DbConnectionPool n)
  | some u => if s.pc u = .sleeping then some (s.goto u .notified) else none
  | none => if ∀ u, s.pc u ≠ .sleeping then some s else none

def step (s : DbConnectionPool n) : Action n → Option (DbConnectionPool n)
  | .acquire t =>
    match s.pc t with
    | .outside => some (s.goto t .locking)
    | _ => none
  | .lock t =>
    match s.pc t with
    | .locking | .notified => some (s.take t)
    | _ => none
  | .release t woken =>
    match s.pc t with
    | .holding connection => (s.release t connection).notifyOne woken
    | _ => none
  | .wakeup t =>
    match s.pc t with
    | .sleeping => some (s.goto t .notified)
    | _ => none

end DbConnectionPool

end RatkiniaServer
