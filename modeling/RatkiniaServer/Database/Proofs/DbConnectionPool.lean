import RatkiniaServer.Database.DbConnectionPool
import Mathlib.Data.List.Nodup

/-!
# Connections are neither shared nor left unused

Every connection is at one place: in the pool, or with one thread. A thread falls asleep only where the
pool is empty, and every connection that comes back while threads are asleep wakes one of them up, so
where threads are asleep there are no more connections in the pool than threads on their way to take
one.
-/

namespace RatkiniaServer.DbConnectionPool

open Threads Transition

variable {n maxConnections : Nat} {s s' : DbConnectionPool n} {t u : Fin n} {act : Action n}

/-- The thread has the connection. -/
def holds (connection : Nat) (p : Pc) : Bool := p = .holding connection

/-- The thread has a connection. -/
def busy : Pc → Bool
  | .holding _ => true
  | _ => false

/-- The thread sleeps. -/
def asleep (p : Pc) : Bool := p = .sleeping

/-- The thread has been asleep and is going to look at the predicate again. -/
def awake (p : Pc) : Bool := p = .notified

/-- Every connection is in the pool or with one thread. -/
structure Places (maxConnections : Nat) (s : DbConnectionPool n) : Prop where
  nodup : s.connections.Nodup
  place : ∀ connection, Token (holds connection) s.pc (connection ∈ s.connections)
    (connection < maxConnections)
  total : s.connections.length + count busy s.pc = maxConnections

/-- Where threads are asleep, no connection is left to nobody. -/
def Wakeups (s : DbConnectionPool n) : Prop :=
  0 < count asleep s.pc → s.connections.length ≤ count awake s.pc

theorem holds_of_not_busy {connection : Nat} {p : Pc} (h : busy p = false) :
    holds connection p = false := by
  cases p with
  | holding c => cases h
  | _ => rfl

/-! ## Places -/

theorem places_init : Places maxConnections (init maxConnections : DbConnectionPool n) where
  nodup := List.nodup_range
  place connection :=
    ⟨none, fun t => by simp [init, holds], fun _ => rfl, by simp [init]⟩
  total := by
    have hnone : count busy (init maxConnections : DbConnectionPool n).pc = 0 :=
      count_eq_zero.mpr fun _ => rfl
    rw [hnone]
    exact List.length_range

/-- A thread without a connection goes on without one. -/
theorem Places.goto {p : Pc} (h : Places maxConnections s) (ht : busy (s.pc t) = false)
    (hp : busy p = false) : Places maxConnections (s.goto t p) where
  nodup := h.nodup
  place connection :=
    (h.place connection).move (by rw [holds_of_not_busy ht, holds_of_not_busy hp])
  total := by
    rw [← h.total]
    exact congrArg _ (count_move (by rw [ht, hp]))

/-- A thread takes the last connection. -/
theorem Places.take {connections : List Nat} {connection : Nat} (h : Places maxConnections s)
    (hs : s.connections = connections ++ [connection]) (ht : busy (s.pc t) = false) :
    Places maxConnections { s.goto t (.holding connection) with connections := connections } := by
  have hnodup := h.nodup
  rw [hs, List.nodup_append] at hnodup
  obtain ⟨hrest, -, hnew⟩ := hnodup
  refine ⟨hrest, fun c => ?_, ?_⟩
  · by_cases hc : c = connection
    · subst hc
      refine (h.place c).accept (by simp [hs]) (by simp [holds]) fun hmem => ?_
      exact hnew c hmem c (List.mem_singleton_self c) rfl
    · refine ((h.place c).move ?_).out_congr (by simp [hs, hc])
      rw [holds_of_not_busy ht]
      simp [holds, Ne.symm hc]
  · have hcount := count_enter (p := .holding connection) ht rfl
    have htotal := h.total
    rw [hs, List.length_append, List.length_singleton] at htotal
    show connections.length + count busy (Function.update s.pc t (.holding connection)) = _
    omega

/-- A thread gives its connection back. -/
theorem Places.release {connection : Nat} (h : Places maxConnections s)
    (ht : s.pc t = .holding connection) : Places maxConnections (s.release t connection) := by
  have hholds : holds connection (s.pc t) = true := by simp [ht, holds]
  have hnew := ((h.place connection).of_mem hholds).2
  refine ⟨h.nodup.append (List.nodup_singleton _) (List.disjoint_singleton.mpr hnew), fun c => ?_, ?_⟩
  · by_cases hc : c = connection
    · subst hc
      exact (h.place c).give hholds rfl (by simp [DbConnectionPool.release])
    · refine ((h.place c).move ?_).out_congr ?_
      · simp [ht, holds, Ne.symm hc]
      · simp [DbConnectionPool.release, hc]
  · have hbusy : busy (s.pc t) = true := by
      rw [ht]
      rfl
    have hcount := count_leave (p := .outside) hbusy rfl
    have htotal := h.total
    show (s.connections ++ [connection]).length + count busy (Function.update s.pc t .outside) = _
    rw [List.length_append, List.length_singleton]
    omega

/-! ## Wakeups -/

theorem wakeups_init : Wakeups (init maxConnections : DbConnectionPool n) := by
  intro h
  have hnone : count asleep (init maxConnections : DbConnectionPool n).pc = 0 :=
    count_eq_zero.mpr fun _ => rfl
  omega

/-- A thread that takes a connection may have been awake. -/
theorem Wakeups.take {connections : List Nat} {connection : Nat} (h : Wakeups s)
    (hs : s.connections = connections ++ [connection]) (ht : asleep (s.pc t) = false) :
    Wakeups { s.goto t (.holding connection) with connections := connections } := by
  intro hasleep
  have hsame : count asleep (Function.update s.pc t (.holding connection)) = count asleep s.pc :=
    count_move ht.symm
  have hle := h (hsame ▸ hasleep)
  rw [hs, List.length_append, List.length_singleton] at hle
  have hawake := count_update awake s.pc t (.holding connection)
  have hbool := Bool.toNat_le (awake (s.pc t))
  have hfalse : (awake (.holding connection)).toNat = 0 := rfl
  show connections.length ≤ count awake (Function.update s.pc t (.holding connection))
  omega

/-- Where a connection comes back, a thread that is asleep is woken up for it. -/
theorem Wakeups.release {connection : Nat} {woken : Option (Fin n)} (h : Wakeups s)
    (ht : s.pc t = .holding connection) (hs' : (s.release t connection).notifyOne woken = some s') :
    Wakeups s' := by
  have hasleep : count asleep (s.release t connection).pc = count asleep s.pc :=
    count_move (by rw [ht]; rfl)
  have hawake : count awake (s.release t connection).pc = count awake s.pc :=
    count_move (by rw [ht]; rfl)
  have hlength : (s.release t connection).connections.length = s.connections.length + 1 :=
    List.length_append
  intro hpos
  unfold notifyOne at hs'
  cases woken with
  | none =>
    split_ifs at hs' with hnone
    obtain rfl := Option.some.inj hs'
    have hzero : count asleep (s.release t connection).pc = 0 :=
      count_eq_zero.mpr fun u => by simp [asleep, hnone u]
    omega
  | some u =>
    dsimp only at hs'
    split_ifs at hs' with hu
    obtain rfl := Option.some.inj hs'
    have hsleeps : asleep ((s.release t connection).pc u) = true := by simp [asleep, hu]
    have hrests : awake ((s.release t connection).pc u) = false := by simp [awake, hu]
    have hless := count_leave (p := .notified) hsleeps rfl
    have hmore := count_enter (p := .notified) hrests rfl
    have hle := h (by omega)
    show (s.release t connection).connections.length ≤
      count awake (Function.update (s.release t connection).pc u .notified)
    omega

/-! ## Steps -/

theorem places_step (h : Places maxConnections s) (hstep : step s act = some s') :
    Places maxConnections s' := by
  cases act with
  | acquire t =>
    cases ht : s.pc t <;> simp only [step, ht, reduceCtorEq, Option.some.injEq] at hstep
    subst hstep
    exact h.goto (by rw [ht]; rfl) rfl
  | lock t =>
    have htake (hfree : busy (s.pc t) = false) : Places maxConnections (s.take t) := by
      unfold DbConnectionPool.take
      cases hlast : s.connections.getLast? with
      | none => exact h.goto hfree rfl
      | some connection => exact h.take (List.dropLast_append_getLast? _ hlast).symm hfree
    cases ht : s.pc t <;> simp only [step, ht, reduceCtorEq, Option.some.injEq] at hstep
    all_goals
      subst hstep
      exact htake (by rw [ht]; rfl)
  | release t woken =>
    cases ht : s.pc t <;> simp only [step, ht, reduceCtorEq] at hstep
    have hplaces := h.release ht
    cases woken with
    | none =>
      unfold notifyOne at hstep
      split_ifs at hstep
      obtain rfl := Option.some.inj hstep
      exact hplaces
    | some u =>
      unfold notifyOne at hstep
      dsimp only at hstep
      split_ifs at hstep with hu
      obtain rfl := Option.some.inj hstep
      exact hplaces.goto (by rw [hu]; rfl) rfl
  | wakeup t =>
    cases ht : s.pc t <;> simp only [step, ht, reduceCtorEq, Option.some.injEq] at hstep
    subst hstep
    exact h.goto (by rw [ht]; rfl) rfl

theorem wakeups_step (h : Wakeups s) (hstep : step s act = some s') : Wakeups s' := by
  cases act with
  | acquire t =>
    cases ht : s.pc t <;> simp only [step, ht, reduceCtorEq, Option.some.injEq] at hstep
    subst hstep
    have hasleep : count asleep (Function.update s.pc t .locking) = count asleep s.pc :=
      count_move (by rw [ht]; rfl)
    have hawake : count awake (Function.update s.pc t .locking) = count awake s.pc :=
      count_move (by rw [ht]; rfl)
    simpa only [Wakeups, goto, hasleep, hawake] using h
  | lock t =>
    have htake (hfree : asleep (s.pc t) = false) : Wakeups (s.take t) := by
      unfold DbConnectionPool.take
      cases hlast : s.connections.getLast? with
      | none =>
        -- Whoever falls asleep has found the pool empty.
        intro _
        rw [List.getLast?_eq_none_iff] at hlast
        simp [goto, hlast]
      | some connection => exact h.take (List.dropLast_append_getLast? _ hlast).symm hfree
    cases ht : s.pc t <;> simp only [step, ht, reduceCtorEq, Option.some.injEq] at hstep
    all_goals
      subst hstep
      exact htake (by rw [ht]; rfl)
  | release t woken =>
    cases ht : s.pc t <;> simp only [step, ht, reduceCtorEq] at hstep
    exact h.release ht hstep
  | wakeup t =>
    cases ht : s.pc t <;> simp only [step, ht, reduceCtorEq, Option.some.injEq] at hstep
    subst hstep
    have hsleeps : asleep (s.pc t) = true := by simp [asleep, ht]
    have hrests : awake (s.pc t) = false := by simp [awake, ht]
    intro _
    have hmore := count_enter (p := .notified) hrests rfl
    have hle := h (count_pos hsleeps)
    show s.connections.length ≤ count awake (Function.update s.pc t .notified)
    omega

/-! ## The theorem -/

theorem Places.exists_holding (h : Places maxConnections s)
    (hlength : s.connections.length < maxConnections) : ∃ t connection, s.pc t = .holding connection := by
  have htotal := h.total
  by_contra hnone
  push Not at hnone
  have hzero : count busy s.pc = 0 := by
    refine count_eq_zero.mpr fun t => ?_
    cases ht : s.pc t with
    | holding connection => exact absurd ht (hnone t connection)
    | _ => rfl
  omega

/-- Where there is a connection in the pool, a thread that looks for one gets it. -/
theorem exists_take (hne : s.connections ≠ []) (ht : s.pc t = .locking ∨ s.pc t = .notified) :
    ∃ s' connection, step s (.lock t) = some s' ∧ s'.pc t = .holding connection := by
  have hlast := List.getLast?_eq_getLast_of_ne_nil hne
  refine ⟨{ s.goto t (.holding (s.connections.getLast hne)) with
    connections := s.connections.dropLast }, s.connections.getLast hne, ?_, Function.update_self ..⟩
  obtain ht | ht := ht <;> simp [step, ht, take, hlast]

/-- A thread can give its connection back. -/
theorem exists_release {connection : Nat} (ht : s.pc t = .holding connection) :
    ∃ woken s', step s (.release t woken) = some s' := by
  by_cases hasleep : ∃ u, (s.release t connection).pc u = .sleeping
  · obtain ⟨u, hu⟩ := hasleep
    exact ⟨some u, (s.release t connection).goto u .notified,
      by simp only [step, ht, notifyOne, if_pos hu]⟩
  · push Not at hasleep
    exact ⟨none, s.release t connection, by simp only [step, ht, notifyOne, if_pos hasleep]⟩

/-- **The pool shares its connections out.** In every state that any number of threads lead to: every
connection is at exactly one place, in the pool or with one thread. No wakeup is lost: where a thread is
asleep and there is a connection in the pool, some thread has been notified and can take it. And there
is no deadlock: where a thread is inside `Acquire` or has a connection, some thread can give a
connection back or take one. -/
theorem connections_shared (hs : Reachable step (init maxConnections : DbConnectionPool n) s) :
    (s.connections.Nodup ∧
      (∀ connection, connection < maxConnections ↔
        connection ∈ s.connections ∨ ∃ t, s.pc t = .holding connection) ∧
      ∀ connection t, s.pc t = .holding connection →
        connection ∉ s.connections ∧ ∀ u, s.pc u = .holding connection → u = t) ∧
    ((∃ t, s.pc t = .sleeping) → s.connections ≠ [] → ∃ u, s.pc u = .notified ∧
      ∃ s' connection, step s (.lock u) = some s' ∧ s'.pc u = .holding connection) ∧
    (0 < maxConnections → (∃ t, s.pc t ≠ .outside) →
      (∃ t woken s', step s (.release t woken) = some s') ∨
      ∃ t s' connection, step s (.lock t) = some s' ∧ s'.pc t = .holding connection) := by
  have hplaces : Places maxConnections s :=
    hs.invariant (fun _ _ _ h hstep => places_step h hstep) places_init
  have hwakeups : Wakeups s := hs.invariant (fun _ _ _ h hstep => wakeups_step h hstep) wakeups_init
  have hwoken (hasleep : ∃ t, s.pc t = .sleeping) (hne : s.connections ≠ []) :
      ∃ u, s.pc u = .notified ∧
        ∃ s' connection, step s (.lock u) = some s' ∧ s'.pc u = .holding connection := by
    obtain ⟨t, ht⟩ := hasleep
    have hle := hwakeups (count_pos (i := t) (by simp [asleep, ht]))
    have hpos := List.length_pos_iff.mpr hne
    have hsome : ¬ ∀ u, awake (s.pc u) = false := fun hall => by
      rw [← count_eq_zero] at hall
      omega
    push Not at hsome
    obtain ⟨u, hu⟩ := hsome
    have hnotified : s.pc u = .notified := by simpa [awake] using hu
    exact ⟨u, hnotified, exists_take hne (Or.inr hnotified)⟩
  refine ⟨⟨hplaces.nodup, fun connection => ?_, fun connection t ht => ⟨?_, fun u hu => ?_⟩⟩, hwoken,
    fun hmax hinside => ?_⟩
  · constructor
    · intro hlt
      have htoken := hplaces.place connection
      rw [decide_eq_true hlt] at htoken
      obtain hpool | ⟨t, ht⟩ := htoken.exists_of_on
      · exact Or.inl hpool
      · exact Or.inr ⟨t, by simpa [holds] using ht⟩
    · rintro (hpool | ⟨t, ht⟩)
      · simpa using ((hplaces.place connection).of_out hpool).1
      · simpa using ((hplaces.place connection).of_mem (i := t) (by simp [holds, ht])).1
  · exact ((hplaces.place connection).of_mem (i := t) (by simp [holds, ht])).2
  · exact (hplaces.place connection).unique (by simp [holds, hu]) (by simp [holds, ht])
  · by_cases hlength : s.connections.length < maxConnections
    · obtain ⟨t, connection, ht⟩ := hplaces.exists_holding hlength
      exact Or.inl ⟨t, exists_release ht⟩
    · have hne : s.connections ≠ [] := by
        intro hnil
        rw [hnil] at hlength
        exact hlength hmax
      obtain ⟨t, ht⟩ := hinside
      cases hpc : s.pc t with
      | outside => exact absurd hpc ht
      | locking => exact Or.inr ⟨t, exists_take hne (Or.inl hpc)⟩
      | notified => exact Or.inr ⟨t, exists_take hne (Or.inr hpc)⟩
      | holding connection => exact Or.inl ⟨t, exists_release hpc⟩
      | sleeping =>
        obtain ⟨u, -, htakes⟩ := hwoken ⟨t, hpc⟩ hne
        exact Or.inr ⟨u, htakes⟩

/-- The second of two threads waits for the only connection, which the first gives back. -/
def handOver : List (Action 2) :=
  let fst := ⟨0, Nat.two_pos⟩
  let snd := ⟨1, Nat.one_lt_two⟩
  [.acquire fst, .lock fst, .acquire snd, .lock snd, .release fst (some snd)]

theorem connections_shared_handOver :
    ∃ s, run step (init 1 : DbConnectionPool 2) handOver = some s ∧ s.pc 1 = .notified ∧
      s.connections.Nodup :=
  ⟨_, rfl, rfl, (connections_shared
    (show Reachable step (init 1 : DbConnectionPool 2) _ from ⟨handOver, rfl⟩)).1.1⟩

end RatkiniaServer.DbConnectionPool
