import RatkiniaServer.Lib.Packed
import RatkiniaServer.MemoryPool.MakeIterableFromThis
import Mathlib.Algebra.Group.Nat.Defs

/-!
# Iterating over packed blocks

If the dense blocks pack the live indices, iterating visits each of them exactly once.
-/

namespace RatkiniaServer.MemoryPool.MakeIterableFromThis

open PackedArray

universe u

variable {α : Type u} {count : Nat} {pair : UInt32 → Option (UInt32 × α)} {cells : Nat → UInt32}
  {live : UInt32 → Option α}

/-- Iterating from the dense index `d` visits the dense blocks from `d` on. -/
theorem iterateFrom_spec (hcount : count < 2 ^ 32)
    (hpair : ∀ d : UInt32, d.toNat < count → ∃ a, pair d = some (cells d.toNat, a) ∧
      live (cells d.toNat) = some a) (k : Nat) :
    ∀ d : UInt32, d.toNat + k = count → ∃ pairs, iterateFrom count pair k d = some pairs ∧
      pairs.map Prod.fst = (List.range' d.toNat k).map cells ∧
      ∀ p ∈ pairs, live p.1 = some p.2 := by
  induction k with
  | zero =>
    intro d hd
    refine ⟨[], ?_, rfl, fun _ => nofun⟩
    rw [iterateFrom, if_pos (by omega)]
  | succ k ih =>
    intro d hd
    have hnext : (d + 1).toNat = d.toNat + 1 := by
      rw [UInt32.toNat_add]
      exact Nat.mod_eq_of_lt (by change d.toNat + 1 < 2 ^ 32; omega)
    obtain ⟨pairs, heq, hfst, hlive⟩ := ih (d + 1) (by omega)
    obtain ⟨a, hread, ha⟩ := hpair d (by omega)
    refine ⟨(cells d.toNat, a) :: pairs, ?_, ?_, ?_⟩
    · rw [iterateFrom, if_neg (by omega)]
      rw [hread, Option.bind_some, heq]
      rfl
    · rw [List.map_cons, hfst, hnext, List.range'_succ, List.map_cons]
    · intro p hp
      rcases List.mem_cons.mp hp with rfl | hp
      · exact ha
      · exact hlive p hp

/-- Iterating yields each live index with its element exactly once. -/
theorem iterate_packed {position : UInt32 → Option Nat} (h : Packed position cells count)
    (hcount : count < 2 ^ 32) (hlive : ∀ i, (position i).isSome = (live i).isSome)
    (hpair : ∀ d : UInt32, d.toNat < count → ∃ a, pair d = some (cells d.toNat, a) ∧
      live (cells d.toNat) = some a) :
    ∃ fuel pairs, iterate count pair fuel = some pairs ∧ (pairs.map Prod.fst).Nodup ∧
      ∀ i a, (i, a) ∈ pairs ↔ live i = some a := by
  obtain ⟨pairs, heq, hfst, hvalue⟩ := iterateFrom_spec hcount hpair count 0 (Nat.zero_add _)
  have hfst' : pairs.map Prod.fst = (List.range count).map cells := by
    rw [hfst, List.range_eq_range']
    rfl
  refine ⟨count, pairs, heq, hfst' ▸ h.nodup, fun i a => ⟨hvalue (i, a), fun ha => ?_⟩⟩
  have hmem : i ∈ pairs.map Prod.fst := by
    rw [hfst', h.mem_iff, hlive, ha]
    rfl
  obtain ⟨⟨i', a'⟩, hp, rfl⟩ := List.mem_map.mp hmem
  rw [hvalue _ hp] at ha
  exact Option.some.inj ha ▸ hp

end RatkiniaServer.MemoryPool.MakeIterableFromThis
