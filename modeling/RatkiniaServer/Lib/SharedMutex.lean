import RatkiniaServer.Lib.Threads

/-!
# A mutex with a shared and an exclusive mode

The state of the mutex is who holds it. Nothing keeps a holder from asking for it again: in shared
mode it is then recorded once more, and in exclusive mode it waits, if need be for itself. `Sound`
ties the state to the program counters of the threads.
-/

universe u v

/-- The holders of a mutex, one that holds it several times in shared mode that many times. -/
structure SharedMutex (ι : Type u) where
  /-- Those that hold it in shared mode. -/
  readers : List ι
  /-- The one that holds it in exclusive mode. -/
  writer : Option ι

namespace SharedMutex

variable {ι : Type u} {π : Type v} [DecidableEq ι]

/-- Nobody holds the mutex. -/
def free : SharedMutex ι := ⟨[], none⟩

/-- Lock in shared mode; `none` where `i` has to wait. -/
def lockShared (m : SharedMutex ι) (i : ι) : Option (SharedMutex ι) :=
  match m.writer with
  | none => some ⟨i :: m.readers, none⟩
  | some _ => none

/-- Unlock in shared mode. -/
def unlockShared (m : SharedMutex ι) (i : ι) : SharedMutex ι := { m with readers := m.readers.erase i }

/-- Lock in exclusive mode; `none` where `i` has to wait. -/
def lock (m : SharedMutex ι) (i : ι) : Option (SharedMutex ι) :=
  match m.writer, m.readers with
  | none, [] => some ⟨[], some i⟩
  | _, _ => none

/-- Unlock in exclusive mode. -/
def unlock (m : SharedMutex ι) : SharedMutex ι := { m with writer := none }

/-- The mutex is held in some mode by `i`. -/
def HeldBy (m : SharedMutex ι) (i : ι) : Prop := i ∈ m.readers ∨ m.writer = some i

omit [DecidableEq ι] in
/-- Who has to wait for the shared mode, waits for a holder. -/
theorem exists_heldBy_of_lockShared {m : SharedMutex ι} {i : ι} (h : m.lockShared i = none) :
    ∃ j, m.HeldBy j := by
  unfold lockShared at h
  cases hw : m.writer with
  | none => simp [hw] at h
  | some j => exact ⟨j, Or.inr hw⟩

omit [DecidableEq ι] in
/-- Who has to wait for the exclusive mode, waits for a holder. -/
theorem exists_heldBy_of_lock {m : SharedMutex ι} {i : ι} (h : m.lock i = none) : ∃ j, m.HeldBy j := by
  unfold lock at h
  cases hw : m.writer with
  | some j => exact ⟨j, Or.inr hw⟩
  | none =>
    cases hr : m.readers with
    | nil => simp [hw, hr] at h
    | cons j readers => exact ⟨j, Or.inl (by rw [hr]; exact List.mem_cons_self ..)⟩

open Threads

/-- The mutex records what the threads hold: in shared mode as often as `shared` says, and in
exclusive mode if `exclusive` does. -/
structure Sound (shared : π → Nat) (exclusive : π → Bool) (pc : ι → π) (m : SharedMutex ι) : Prop where
  readers : ∀ i, m.readers.count i = shared (pc i)
  writer : Tracks exclusive pc m.writer
  apart : m.writer ≠ none → m.readers = []

namespace Sound

variable {shared : π → Nat} {exclusive : π → Bool} {pc : ι → π} {m m' : SharedMutex ι} {i j : ι}
  {p : π}

/-- Who holds the mutex in exclusive mode keeps all others out. -/
theorem shared_eq_zero (h : Sound shared exclusive pc m) (hi : exclusive (pc i) = true) (j : ι) :
    shared (pc j) = 0 := by
  rw [← h.readers j, h.apart (by rw [h.writer.eq_some hi]; nofun), List.count_nil]

theorem heldBy_iff (h : Sound shared exclusive pc m) :
    m.HeldBy i ↔ 0 < shared (pc i) ∨ exclusive (pc i) = true := by
  rw [HeldBy, ← h.readers i, List.count_pos_iff, h.writer i]

/-- A step that keeps what the thread holds. -/
theorem move (h : Sound shared exclusive pc m) (hs : shared p = shared (pc i))
    (he : exclusive p = exclusive (pc i)) : Sound shared exclusive (Function.update pc i p) m := by
  refine ⟨fun j => ?_, h.writer.move he, h.apart⟩
  rcases eq_or_ne j i with rfl | hne
  · rw [Function.update_self, hs, h.readers]
  · rw [Function.update_of_ne hne, h.readers]

theorem lockShared (h : Sound shared exclusive pc m) (hm : m.lockShared i = some m')
    (hs : shared p = shared (pc i) + 1) (he : exclusive p = exclusive (pc i)) :
    Sound shared exclusive (Function.update pc i p) m' := by
  unfold SharedMutex.lockShared at hm
  split at hm
  · rename_i hw
    obtain rfl := Option.some.inj hm
    refine ⟨fun j => ?_, hw ▸ h.writer.move he, nofun⟩
    change (i :: m.readers).count j = _
    rcases eq_or_ne j i with rfl | hne
    · rw [Function.update_self, hs, List.count_cons_self, h.readers]
    · rw [Function.update_of_ne hne, List.count_cons_of_ne hne.symm, h.readers]
  · cases hm

theorem unlockShared (h : Sound shared exclusive pc m) (hs : shared p + 1 = shared (pc i))
    (he : exclusive p = exclusive (pc i)) :
    Sound shared exclusive (Function.update pc i p) (m.unlockShared i) := by
  refine ⟨fun j => ?_, h.writer.move he, fun hw => ?_⟩
  · change (m.readers.erase i).count j = _
    rcases eq_or_ne j i with rfl | hne
    · rw [Function.update_self, List.count_erase_self, h.readers]
      omega
    · rw [Function.update_of_ne hne, List.count_erase_of_ne hne, h.readers]
  · change m.readers.erase i = []
    rw [h.apart hw, List.erase_nil]

theorem lock (h : Sound shared exclusive pc m) (hm : m.lock i = some m')
    (hs : shared p = shared (pc i)) (he : exclusive p = true) :
    Sound shared exclusive (Function.update pc i p) m' := by
  unfold SharedMutex.lock at hm
  split at hm
  · rename_i hw hr
    obtain rfl := Option.some.inj hm
    have hwriter := h.writer
    rw [hw] at hwriter
    refine ⟨fun j => ?_, hwriter.enter he, fun _ => rfl⟩
    rw [← hr]
    rcases eq_or_ne j i with rfl | hne
    · rw [Function.update_self, hs, h.readers]
    · rw [Function.update_of_ne hne, h.readers]
  · cases hm

theorem unlock (h : Sound shared exclusive pc m) (hi : exclusive (pc i) = true)
    (hs : shared p = shared (pc i)) (he : exclusive p = false) :
    Sound shared exclusive (Function.update pc i p) m.unlock := by
  refine ⟨fun j => ?_, h.writer.leave hi he, fun hw => absurd rfl hw⟩
  change m.readers.count j = _
  rcases eq_or_ne j i with rfl | hne
  · rw [Function.update_self, hs, h.readers]
  · rw [Function.update_of_ne hne, h.readers]

end Sound

end SharedMutex
