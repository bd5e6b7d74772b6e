import Mathlib.Algebra.Group.Nat.Defs
import Mathlib.Data.List.Nodup
import Mathlib.Data.List.Perm.Subperm
import Mathlib.Data.List.Range
import Mathlib.Logic.Function.Basic
import Mathlib.Tactic.Common

/-!
# Packed arrays

A packed array keeps a finite set of keys in the first `count` cells of an array, in any order, and
with each key the position of its cell. A new key goes behind the last cell; the cell of a removed key
is filled with the last key. Cells behind `count` hold anything.
-/

namespace PackedArray

universe u

variable {ι : Type u}

/-- The keys with a position are those in the first `count` cells, each at its own position. -/
def Packed (position : ι → Option Nat) (cells : Nat → ι) (count : Nat) : Prop :=
  ∀ i d, position i = some d ↔ d < count ∧ cells d = i

variable {position : ι → Option Nat} {cells : Nat → ι} {count d : Nat} {i : ι}

theorem packed_empty (cells : Nat → ι) : Packed (fun _ => none) cells 0 := by
  intro i d
  simp

theorem Packed.position_cells (h : Packed position cells count) (hd : d < count) :
    position (cells d) = some d :=
  (h _ _).mpr ⟨hd, rfl⟩

theorem Packed.lt (h : Packed position cells count) (hi : position i = some d) : d < count :=
  ((h i d).mp hi).1

theorem Packed.cells_eq (h : Packed position cells count) (hi : position i = some d) : cells d = i :=
  ((h i d).mp hi).2

/-- No two cells hold the same key. -/
theorem Packed.inj (h : Packed position cells count) {d' : Nat} (hd : d < count) (hd' : d' < count)
    (heq : cells d = cells d') : d = d' := by
  have hposition := h.position_cells hd
  rw [heq, h.position_cells hd'] at hposition
  exact (Option.some.inj hposition).symm

theorem Packed.nodup (h : Packed position cells count) : ((List.range count).map cells).Nodup := by
  refine List.Nodup.map_on (fun d hd d' hd' heq => ?_) List.nodup_range
  exact h.inj (List.mem_range.mp hd) (List.mem_range.mp hd') heq

theorem Packed.mem_iff (h : Packed position cells count) :
    i ∈ (List.range count).map cells ↔ (position i).isSome = true := by
  rw [List.mem_map, Option.isSome_iff_exists]
  constructor
  · rintro ⟨d, hd, rfl⟩
    exact ⟨d, h.position_cells (List.mem_range.mp hd)⟩
  · rintro ⟨d, hd⟩
    exact ⟨d, List.mem_range.mpr (h.lt hd), h.cells_eq hd⟩

/-- Cells behind `count` do not matter. -/
theorem Packed.congr (h : Packed position cells count) {cells' : Nat → ι}
    (hcells : ∀ d < count, cells' d = cells d) : Packed position cells' count := by
  intro i d
  rw [h i d]
  exact and_congr_right fun hd => by rw [hcells d hd]

/-- If there are at most `n` keys, at most `n` have a position. -/
theorem Packed.count_le (h : Packed position cells count) {f : ι → Nat} {n : Nat}
    (hf : Function.Injective f) (hlt : ∀ i, f i < n) : count ≤ n := by
  have hsubset : ((List.range count).map cells).map f ⊆ List.range n := by
    intro k hk
    obtain ⟨j, -, rfl⟩ := List.mem_map.mp hk
    exact List.mem_range.mpr (hlt j)
  have hlength := ((h.nodup.map hf).subperm hsubset).length_le
  simpa only [List.length_map, List.length_range] using hlength

section Updates

variable [DecidableEq ι]

/-- A new key goes behind the last cell. -/
theorem Packed.push (h : Packed position cells count) (hi : position i = none) :
    Packed (Function.update position i (some count)) (Function.update cells count i) (count + 1) := by
  intro j d
  by_cases hj : j = i
  · subst hj
    rw [Function.update_self, Option.some.injEq]
    constructor
    · rintro rfl
      exact ⟨Nat.lt_succ_self _, Function.update_self ..⟩
    · rintro ⟨hd, hcell⟩
      by_contra hne
      rw [Function.update_of_ne (Ne.symm hne)] at hcell
      have hold := h.position_cells (d := d) (by omega)
      rw [hcell, hi] at hold
      cases hold
  · rw [Function.update_of_ne hj, h j d]
    constructor
    · rintro ⟨hd, hcell⟩
      refine ⟨by omega, ?_⟩
      rwa [Function.update_of_ne (by omega)]
    · rintro ⟨hd, hcell⟩
      by_cases hlast : d = count
      · subst hlast
        rw [Function.update_self] at hcell
        exact absurd hcell.symm hj
      · rw [Function.update_of_ne hlast] at hcell
        exact ⟨by omega, hcell⟩

omit [DecidableEq ι] in
/-- If there are at most `n` keys and one has no position, then fewer than `n` have one. -/
theorem Packed.count_lt (h : Packed position cells count) {f : ι → Nat} {n : Nat}
    (hf : Function.Injective f) (hlt : ∀ i, f i < n) (hi : position i = none) : count < n := by
  classical
  -- the key could still be pushed
  exact Nat.lt_of_succ_le ((h.push hi).count_le hf hlt)

/-- There are at most 2³² keys of 32 bits. -/
theorem Packed.count_le_two_pow {position : UInt32 → Option Nat} {cells : Nat → UInt32}
    (h : Packed position cells count) : count ≤ 2 ^ 32 :=
  h.count_le (fun _ _ => UInt32.toNat_inj.mp) UInt32.toNat_lt

theorem Packed.count_lt_two_pow {position : UInt32 → Option Nat} {cells : Nat → UInt32} {i : UInt32}
    (h : Packed position cells count) (hi : position i = none) : count < 2 ^ 32 :=
  h.count_lt (fun _ _ => UInt32.toNat_inj.mp) UInt32.toNat_lt hi

/-- The key in the last cell goes. -/
theorem Packed.pop (h : Packed position cells (count + 1)) (hi : position i = some count) :
    Packed (Function.update position i none) cells count := by
  intro j d
  by_cases hj : j = i
  · subst hj
    rw [Function.update_self]
    refine ⟨nofun, fun ⟨hd, hcell⟩ => ?_⟩
    have hold := h.position_cells (d := d) (by omega)
    rw [hcell, hi] at hold
    have := Option.some.inj hold
    omega
  · rw [Function.update_of_ne hj, h j d]
    constructor
    · rintro ⟨hd, hcell⟩
      refine ⟨Nat.lt_of_le_of_ne (by omega) ?_, hcell⟩
      rintro rfl
      exact hj (hcell.symm.trans (h.cells_eq hi))
    · rintro ⟨hd, hcell⟩
      exact ⟨by omega, hcell⟩

omit [DecidableEq ι] in
/-- The key in the last cell is not the one in another cell. -/
theorem Packed.last_ne (h : Packed position cells (count + 1)) (hi : position i = some d)
    (hd : d ≠ count) : cells count ≠ i := by
  intro heq
  have hlast := h.position_cells (Nat.lt_succ_self count)
  rw [heq, hi] at hlast
  exact hd (Option.some.inj hlast)

/-- The key in another cell goes and the last key takes its cell. -/
theorem Packed.swapPop (h : Packed position cells (count + 1)) (hi : position i = some d)
    (hd : d ≠ count) :
    Packed (Function.update (Function.update position i none) (cells count) (some d))
      (Function.update cells d (cells count)) count := by
  have hlt := h.lt hi
  have hne := h.last_ne hi hd
  intro j e
  by_cases hlast : j = cells count
  · subst hlast
    rw [Function.update_self, Option.some.injEq]
    constructor
    · rintro rfl
      exact ⟨by omega, Function.update_self ..⟩
    · rintro ⟨he, hcell⟩
      by_contra hed
      rw [Function.update_of_ne (Ne.symm hed)] at hcell
      have := h.inj (by omega) (Nat.lt_succ_self _) hcell
      omega
  · rw [Function.update_of_ne hlast]
    by_cases hj : j = i
    · subst hj
      rw [Function.update_self]
      refine ⟨nofun, fun ⟨he, hcell⟩ => ?_⟩
      by_cases hed : e = d
      · rw [hed, Function.update_self] at hcell
        exact absurd hcell hne
      · rw [Function.update_of_ne hed] at hcell
        exact absurd (h.inj (by omega) hlt (hcell.trans (h.cells_eq hi).symm)) hed
    · rw [Function.update_of_ne hj, h j e]
      constructor
      · rintro ⟨he, hcell⟩
        have hec : e ≠ count := by
          rintro rfl
          exact hlast hcell.symm
        have hed : e ≠ d := by
          rintro rfl
          exact hj (hcell.symm.trans (h.cells_eq hi))
        refine ⟨by omega, ?_⟩
        rwa [Function.update_of_ne hed]
      · rintro ⟨he, hcell⟩
        by_cases hed : e = d
        · rw [hed, Function.update_self] at hcell
          exact absurd hcell.symm hlast
        · rw [Function.update_of_ne hed] at hcell
          exact ⟨by omega, hcell⟩

end Updates

end PackedArray
