import Mathlib.Algebra.BigOperators.Group.Finset.Basic
import Mathlib.Data.Fintype.Card
import Mathlib.Tactic.Common

/-!
# Threads by their program counters

A program of many threads keeps a map `pc` from threads to program counters; a step of a thread
updates the map at one place. `Tracks f pc o` says that the threads at a program counter with `f` are
exactly the one that `o` names, if any, as a mutex records its holder. `Token f pc out flag` says the
same of a flag that stands for a token, which may also be outside of the threads. `count f pc` is the
number of threads at a program counter with `f`, as a countdown records it. The rules say how a step
keeps this up.
-/

namespace Threads

universe u v

variable {ι : Type u} {π : Type v} {f : π → Bool} {pc : ι → π} {o : Option ι} {i j : ι} {p : π}

/-- The threads at a program counter with `f` are exactly the one in `o`. -/
def Tracks (f : π → Bool) (pc : ι → π) (o : Option ι) : Prop := ∀ i, f (pc i) = true ↔ o = some i

namespace Tracks

theorem eq_some (h : Tracks f pc o) (hi : f (pc i) = true) : o = some i := (h i).mp hi

/-- At most one thread is tracked. -/
theorem unique (h : Tracks f pc o) (hi : f (pc i) = true) (hj : f (pc j) = true) : i = j :=
  Option.some.inj ((h.eq_some hi).symm.trans (h.eq_some hj))

theorem eq_none (h : Tracks f pc o) (hall : ∀ i, f (pc i) = false) : o = none := by
  cases o with
  | none => rfl
  | some i =>
    have hi := (h i).mpr rfl
    rw [hall i] at hi
    cases hi

variable [DecidableEq ι]

/-- A step that neither enters nor leaves. -/
theorem move (h : Tracks f pc o) (hp : f p = f (pc i)) : Tracks f (Function.update pc i p) o := by
  intro j
  rcases eq_or_ne j i with rfl | hne
  · rw [Function.update_self, hp, h j]
  · rw [Function.update_of_ne hne, h j]

/-- A step that enters, where no thread was. -/
theorem enter (h : Tracks f pc none) (hp : f p = true) :
    Tracks f (Function.update pc i p) (some i) := by
  intro j
  rcases eq_or_ne j i with rfl | hne
  · simp [hp]
  · rw [Function.update_of_ne hne, h j]
    simp [hne.symm]

/-- A step that leaves. -/
theorem leave (h : Tracks f pc o) (hi : f (pc i) = true) (hp : f p = false) :
    Tracks f (Function.update pc i p) none := by
  obtain rfl := h.eq_some hi
  intro j
  rcases eq_or_ne j i with rfl | hne
  · simp [hp]
  · rw [Function.update_of_ne hne, h j]
    simp [hne.symm]

end Tracks

/-! ## Tokens -/

/-- A flag stands for a token of which there is at most one: it is with a thread at a program counter
with `f`, or outside of the threads. -/
def Token (f : π → Bool) (pc : ι → π) (out : Prop) (flag : Bool) : Prop :=
  ∃ o : Option ι, Tracks f pc o ∧ (out → o = none) ∧ (flag = true ↔ o.isSome = true ∨ out)

namespace Token

variable {out out' : Prop} {flag : Bool}

/-- The token is with a thread. -/
theorem of_mem (h : Token f pc out flag) (hi : f (pc i) = true) : flag = true ∧ ¬ out := by
  obtain ⟨o, htracks, hout, hflag⟩ := h
  have ho := htracks.eq_some hi
  refine ⟨hflag.mpr (Or.inl (by simp [ho])), fun hx => ?_⟩
  rw [hout hx] at ho
  cases ho

theorem unique (h : Token f pc out flag) (hi : f (pc i) = true) (hj : f (pc j) = true) : i = j :=
  let ⟨_, htracks, _, _⟩ := h
  htracks.unique hi hj

/-- The token is outside. -/
theorem of_out (h : Token f pc out flag) (hx : out) : flag = true ∧ ∀ i, f (pc i) = false := by
  refine ⟨?_, fun i => ?_⟩
  · obtain ⟨o, -, -, hflag⟩ := h
    exact hflag.mpr (Or.inr hx)
  · cases hi : f (pc i) with
    | false => rfl
    | true => exact absurd hx (h.of_mem hi).2

/-- The token is somewhere where the flag is on. -/
theorem exists_of_on (h : Token f pc out true) : out ∨ ∃ i, f (pc i) = true := by
  obtain ⟨o, htracks, -, hflag⟩ := h
  rcases hflag.mp rfl with ho | hout
  · obtain ⟨i, rfl⟩ := Option.isSome_iff_exists.mp ho
    exact Or.inr ⟨i, (htracks i).mpr rfl⟩
  · exact Or.inl hout

/-- Nobody has the token where the flag is off. -/
theorem of_off (h : Token f pc out false) : ¬ out ∧ ∀ i, f (pc i) = false := by
  refine ⟨fun hx => Bool.noConfusion (h.of_out hx).1, fun i => ?_⟩
  cases hi : f (pc i) with
  | false => rfl
  | true => exact Bool.noConfusion (h.of_mem hi).1

theorem off_of (hall : ∀ i, f (pc i) = false) (hx : ¬ out) : Token f pc out false :=
  ⟨none, fun i => by simp [hall i], fun _ => rfl, by simp [hx]⟩

theorem flag_eq_false (h : Token f pc out flag) (hall : ∀ i, f (pc i) = false) (hx : ¬ out) :
    flag = false := by
  obtain ⟨o, htracks, -, hflag⟩ := h
  rw [htracks.eq_none hall] at hflag
  simpa [hx] using hflag

theorem out_congr (h : Token f pc out flag) (hx : out' ↔ out) : Token f pc out' flag := by
  rwa [propext hx]

variable [DecidableEq ι]

/-- The token stays where it is. -/
theorem move (h : Token f pc out flag) (hp : f p = f (pc i)) :
    Token f (Function.update pc i p) out flag :=
  let ⟨o, htracks, hout, hflag⟩ := h
  ⟨o, htracks.move hp, hout, hflag⟩

/-- A thread takes the token. -/
theorem take (h : Token f pc out false) (hp : f p = true) :
    Token f (Function.update pc i p) out true := by
  have hout := h.of_off.1
  obtain ⟨o, htracks, -, hflag⟩ := h
  obtain rfl : o = none := by simpa [hout] using hflag
  exact ⟨some i, htracks.enter hp, fun hx => absurd hx hout, by simp⟩

/-- A thread gives the token back. -/
theorem release (h : Token f pc out flag) (hi : f (pc i) = true) (hp : f p = false) :
    Token f (Function.update pc i p) out false :=
  let ⟨_, htracks, _, _⟩ := h
  ⟨none, htracks.leave hi hp, fun _ => rfl, by simp [(h.of_mem hi).2]⟩

/-- A step that does not take the token. -/
theorem exists_step (h : Token f pc out flag) (hp : f p = true → f (pc i) = true) :
    ∃ b, Token f (Function.update pc i p) out b := by
  cases hfp : f p with
  | true => exact ⟨flag, h.move (by rw [hfp, hp hfp])⟩
  | false =>
    cases hi : f (pc i) with
    | true => exact ⟨false, h.release hi hfp⟩
    | false => exact ⟨flag, h.move (by rw [hfp, hi])⟩

/-- A thread hands the token to the outside. -/
theorem give (h : Token f pc out flag) (hi : f (pc i) = true) (hp : f p = false) (hx : out') :
    Token f (Function.update pc i p) out' flag :=
  let ⟨_, htracks, _, _⟩ := h
  ⟨none, htracks.leave hi hp, fun _ => rfl, by simp [(h.of_mem hi).1, hx]⟩

/-- A thread gets the token from the outside. -/
theorem accept (h : Token f pc out flag) (hout : out) (hp : f p = true) (hx : ¬ out') :
    Token f (Function.update pc i p) out' flag := by
  obtain ⟨o, htracks, hnone, hflag⟩ := h
  obtain rfl := hnone hout
  exact ⟨some i, htracks.enter hp, fun h' => absurd h' hx, by simp [hflag, hout]⟩

end Token

/-- What holds at every program counter still does after a step of one thread that leads to a program
counter where it holds. -/
theorem forall_update [DecidableEq ι] {A : ι → π → Prop} (hother : ∀ j, j ≠ i → A j (pc j))
    (hp : A i p) (j : ι) : A j (Function.update pc i p j) := by
  rcases eq_or_ne j i with rfl | hne
  · rwa [Function.update_self]
  · rw [Function.update_of_ne hne]
    exact hother j hne

/-! ## Counts -/

section Count

variable [Fintype ι]

/-- The number of threads at a program counter with `f`. -/
def count (f : π → Bool) (pc : ι → π) : Nat := (Finset.univ.filter fun i => f (pc i) = true).card

theorem count_eq_zero : count f pc = 0 ↔ ∀ i, f (pc i) = false := by
  simp [count]

theorem count_eq_card (hall : ∀ i, f (pc i) = true) : count f pc = Fintype.card ι := by
  simp [count, hall, Finset.card_univ]

theorem count_pos (hi : f (pc i) = true) : 0 < count f pc :=
  Finset.card_pos.mpr ⟨i, by simp [hi]⟩

theorem count_lt_card (hi : f (pc i) = false) : count f pc < Fintype.card ι :=
  Finset.card_lt_univ_of_notMem (x := i) (by simp [hi])

/-- Where fewer than two threads are at a program counter with `f`, they are one. -/
theorem eq_of_count_le_one (h : count f pc ≤ 1) (hi : f (pc i) = true) (hj : f (pc j) = true) :
    i = j :=
  Finset.card_le_one.mp h i (by simp [hi]) j (by simp [hj])

variable [DecidableEq ι]

/-- A sum over the threads moves by what it moves at the one that steps. -/
theorem sum_step {f g : ι → Nat} (hother : ∀ j, j ≠ i → f j = g j) :
    ∑ j, f j + g i = ∑ j, g j + f i := by
  have hrest : ∑ j ∈ Finset.univ.erase i, f j = ∑ j ∈ Finset.univ.erase i, g j :=
    Finset.sum_congr rfl fun j hj => hother j (Finset.ne_of_mem_erase hj)
  rw [← Finset.add_sum_erase _ f (Finset.mem_univ i), ← Finset.add_sum_erase _ g (Finset.mem_univ i),
    hrest]
  omega

/-- A step of one thread moves the count by what it moves at that thread. -/
theorem count_update (f : π → Bool) (pc : ι → π) (i : ι) (p : π) :
    count f (Function.update pc i p) + (f (pc i)).toNat = count f pc + (f p).toNat := by
  have hsplit (g : ι → π) :
      count f g = (if f (g i) = true then 1 else 0) +
        ((Finset.univ.erase i).filter fun j => f (g j) = true).card := by
    unfold count
    conv_lhs => rw [← Finset.insert_erase (Finset.mem_univ i), Finset.filter_insert]
    split
    · rw [Finset.card_insert_of_notMem (by simp), Nat.add_comm]
    · rw [Nat.zero_add]
  have hrest : ((Finset.univ.erase i).filter fun j => f (Function.update pc i p j) = true) =
      (Finset.univ.erase i).filter fun j => f (pc j) = true := by
    apply Finset.filter_congr
    intro j hj
    rw [Function.update_of_ne (Finset.ne_of_mem_erase hj)]
  rw [hsplit pc, hsplit (Function.update pc i p), hrest, Function.update_self]
  cases f (pc i) <;> cases f p <;> simp <;> omega

/-- A step that neither enters nor leaves. -/
theorem count_move (hp : f p = f (pc i)) : count f (Function.update pc i p) = count f pc := by
  have h := count_update f pc i p
  rw [hp] at h
  omega

/-- A step that enters. -/
theorem count_enter (hi : f (pc i) = false) (hp : f p = true) :
    count f (Function.update pc i p) = count f pc + 1 := by
  have h := count_update f pc i p
  simpa [hi, hp] using h

/-- A step that leaves. -/
theorem count_leave (hi : f (pc i) = true) (hp : f p = false) :
    count f (Function.update pc i p) + 1 = count f pc := by
  have h := count_update f pc i p
  simpa [hi, hp] using h

/-- A step of one thread moves a sum over the threads by what it moves at that thread. -/
theorem sum_update (g : π → Nat) (pc : ι → π) (i : ι) (p : π) :
    ∑ j, g (Function.update pc i p j) + g (pc i) = ∑ j, g (pc j) + g p := by
  have hrest : ∑ j ∈ Finset.univ.erase i, g (Function.update pc i p j) =
      ∑ j ∈ Finset.univ.erase i, g (pc j) := by
    refine Finset.sum_congr rfl fun j hj => ?_
    rw [Function.update_of_ne (Finset.ne_of_mem_erase hj)]
  rw [← Finset.add_sum_erase _ _ (Finset.mem_univ i), hrest, Function.update_self,
    ← Finset.add_sum_erase _ (fun j => g (pc j)) (Finset.mem_univ i)]
  omega

end Count

end Threads
