import RatkiniaServer.Proofs.PopBuffer

/-!
# The sizes of the ring helpers

`GetWritableSizes` and `GetReadableSizes` split a write behind the stored bytes, or a read of them, at
the end of the ring. They compute in `size_t`, where a difference below zero or a sum from 2⁶⁴ on would
wrap; the checked helpers have no result there.
-/

namespace RatkiniaServer

open Ring

/-! ## The helpers in checked arithmetic -/

/-- A difference in `size_t`. -/
def checkedSub (a b : Nat) : Option Nat := if b ≤ a then some (a - b) else none

/-- A sum in `size_t`. -/
def checkedAdd (a b : Nat) : Option Nat := if a + b < 2 ^ 64 then some (a + b) else none

/-- `GetRingBufferSize`. -/
def checkedRingBufferSize (bufferCapacity head tail : Nat) : Option Nat :=
  if head ≤ tail then checkedSub tail head
  else (checkedSub bufferCapacity head).bind fun behind => checkedAdd behind tail

/-- `GetWritableSizes`. -/
def checkedWritableSizes (bufferCapacity head tail sizeToWrite : Nat) : Option (Option (Nat × Nat)) := do
  let ringBufferSize ← checkedRingBufferSize bufferCapacity head tail
  let unused ← checkedSub bufferCapacity ringBufferSize
  let ringBufferAvailableSize ← checkedSub unused 1
  if ringBufferAvailableSize < sizeToWrite then
    return none
  let behind ← checkedSub bufferCapacity tail
  let primarySize := min sizeToWrite behind
  let secondarySize ← checkedSub sizeToWrite primarySize
  return some (primarySize, secondarySize)

/-- `GetReadableSizes`. -/
def checkedReadableSizes (bufferCapacity head tail sizeToRead : Nat) : Option (Option (Nat × Nat)) := do
  let ringBufferSize ← checkedRingBufferSize bufferCapacity head tail
  if ringBufferSize < sizeToRead then
    return none
  let behind ← checkedSub bufferCapacity head
  let primarySize := min sizeToRead behind
  let secondarySize ← checkedSub sizeToRead primarySize
  return some (primarySize, secondarySize)

variable {cap head tail n p s : Nat}

theorem checkedSub_of_le {a b : Nat} (h : b ≤ a) : checkedSub a b = some (a - b) := if_pos h

theorem checkedAdd_of_lt {a b : Nat} (h : a + b < 2 ^ 64) : checkedAdd a b = some (a + b) := if_pos h

theorem getRingBufferSize_lt (hh : head < cap) (ht : tail < cap) :
    getRingBufferSize cap head tail < cap := size_lt hh ht

theorem checkedRingBufferSize_eq (hcap : cap < 2 ^ 63) (hh : head < cap) :
    checkedRingBufferSize cap head tail = some (getRingBufferSize cap head tail) := by
  unfold checkedRingBufferSize getRingBufferSize
  split_ifs with hle
  · exact checkedSub_of_le hle
  · rw [checkedSub_of_le (Nat.le_of_lt hh), Option.bind_some]
    exact checkedAdd_of_lt (by omega)

theorem checkedWritableSizes_eq (hcap : cap < 2 ^ 63) (hh : head < cap) (ht : tail < cap) (n : Nat) :
    checkedWritableSizes cap head tail n = some (getWritableSizes cap head tail n) := by
  have hlt := getRingBufferSize_lt hh ht
  unfold checkedWritableSizes getWritableSizes
  rw [checkedRingBufferSize_eq hcap hh, Option.bind_eq_bind, Option.bind_some,
    checkedSub_of_le (Nat.le_of_lt hlt), Option.bind_some,
    checkedSub_of_le (Nat.sub_pos_of_lt hlt), Option.bind_some]
  dsimp only
  split_ifs with hshort
  · rfl
  · rw [checkedSub_of_le (Nat.le_of_lt ht), Option.bind_some,
      checkedSub_of_le (Nat.min_le_left ..)]
    rfl

theorem checkedReadableSizes_eq (hcap : cap < 2 ^ 63) (hh : head < cap) (n : Nat) :
    checkedReadableSizes cap head tail n = some (getReadableSizes cap head tail n) := by
  unfold checkedReadableSizes getReadableSizes
  rw [checkedRingBufferSize_eq hcap hh, Option.bind_eq_bind, Option.bind_some]
  dsimp only
  split_ifs with hshort
  · rfl
  · rw [checkedSub_of_le (Nat.le_of_lt hh), Option.bind_some,
      checkedSub_of_le (Nat.min_le_left ..)]
    rfl

/-! ## The pieces of a write -/

/-- The buffer after the first `p` of the bytes are written at the tail and the others at the start. -/
def writePieces (buf : Nat → UInt8) (tail p : Nat) (bytes : Bytes) : Nat → UInt8 :=
  write (write buf tail (bytes.take p)) 0 (bytes.drop p)

theorem getWritableSizes_eq_some (ht : tail < cap) :
    getWritableSizes cap head tail n = some (p, s) ↔
      n ≤ cap - 1 - getRingBufferSize cap head tail ∧ p = min n (cap - tail) ∧ s = n - p := by
  unfold getWritableSizes
  dsimp only
  split_ifs with hshort
  · refine ⟨nofun, fun h => ?_⟩
    omega
  · rw [Option.some.injEq, Prod.mk.injEq]
    constructor
    · rintro ⟨rfl, rfl⟩
      exact ⟨by omega, rfl, rfl⟩
    · rintro ⟨-, rfl, rfl⟩
      exact ⟨rfl, rfl⟩

/-- A write of `n` bytes in pieces of `p` and `s` bytes fits in between the tail and the head, and what
is read afterwards is what was stored with the new bytes behind it. -/
structure SplitsWrite (cap head tail n p s : Nat) : Prop where
  sum : p + s = n
  primary_le : tail + p ≤ cap
  disjoint : ∀ position, (tail ≤ position ∧ position < tail + p) ∨ position < s →
    position < cap ∧ ¬ Session.Readable cap head tail position
  reads : ∀ (buf : Nat → UInt8) (bytes : Bytes), bytes.length = n →
    ∃ p' s', getReadableSizes cap head ((tail + n) % cap) (getRingBufferSize cap head tail + n) =
        some (p', s') ∧
      head + p' ≤ cap ∧
      slice (writePieces buf tail p bytes) head p' ++ slice (writePieces buf tail p bytes) 0 s' =
        content cap buf head (getRingBufferSize cap head tail) ++ bytes

/-- The positions behind the tail, as far as there is room, hold none of the stored bytes. -/
theorem not_readable_behind {j : Nat} (hh : head < cap) (ht : tail < cap)
    (hj : getRingBufferSize cap head tail + j < cap) :
    ¬ Session.Readable cap head tail ((tail + j) % cap) := by
  rintro ⟨k, hk, heq⟩
  have hlt := getRingBufferSize_lt hh ht
  rw [add_mod_eq hh (by omega), add_mod_eq ht (by omega)] at heq
  unfold getRingBufferSize at hj hk
  split_ifs at hj hk heq <;> omega

theorem splitsWrite (hh : head < cap) (ht : tail < cap)
    (h : getWritableSizes cap head tail n = some (p, s)) : SplitsWrite cap head tail n p s := by
  obtain ⟨hroom, hp, hs⟩ := (getWritableSizes_eq_some ht).mp h
  have hlt := getRingBufferSize_lt hh ht
  refine ⟨by omega, by omega, fun position hposition => ?_, fun buf bytes hlength => ?_⟩
  · -- the position that is written with the byte number `j`
    obtain ⟨j, hj, hmod⟩ : ∃ j < n, (tail + j) % cap = position := by
      obtain ⟨hle, hend⟩ | hstart := hposition
      · refine ⟨position - tail, by omega, ?_⟩
        rw [Nat.add_sub_cancel' hle, Nat.mod_eq_of_lt (by omega)]
      · refine ⟨cap - tail + position, by omega, ?_⟩
        rw [show tail + (cap - tail + position) = position + cap by omega, Nat.add_mod_right,
          Nat.mod_eq_of_lt (by omega)]
    rw [← hmod]
    exact ⟨Nat.mod_lt _ (by omega), not_readable_behind hh ht (by omega)⟩
  · have hring : Holds cap buf head tail (content cap buf head (getRingBufferSize cap head tail)) :=
      ⟨hh, ht, rfl⟩
    have hall : (content cap buf head (getRingBufferSize cap head tail) ++ bytes).length =
        getRingBufferSize cap head tail + n := by
      rw [List.length_append, length_content, hlength]
    have hnext : Holds cap (writePieces buf tail p bytes) head ((tail + n) % cap)
        (content cap buf head (getRingBufferSize cap head tail) ++ bytes) := by
      rw [← hlength]
      exact hring.enqueue_pieces bytes (by rw [length_content]; omega) (hlength.symm ▸ hp)
    obtain ⟨hsizes, hreads⟩ := (Session.getReadableSizes_spec hnext).2 (Nat.le_of_eq hall.symm)
    refine ⟨_, _, hsizes, by omega, ?_⟩
    rw [hreads, ← hall, List.take_length]

/-- **The ring helpers split without gaps, overlap or underflow.** `GetWritableSizes` has a result
exactly where the bytes fit in and one position stays free. Its pieces make up the write, stay in the
ring and off the stored bytes, and `GetReadableSizes` reads all of it back. No difference in the three
helpers is below zero, and no sum reaches 2⁶⁴. -/
theorem ringSizes_split (hcap : cap < 2 ^ 63) (hh : head < cap) (ht : tail < cap) (n : Nat) :
    (getRingBufferSize cap head tail < cap ∧ (head + getRingBufferSize cap head tail) % cap = tail) ∧
    ((∃ p s, getWritableSizes cap head tail n = some (p, s)) ↔
      n ≤ cap - 1 - getRingBufferSize cap head tail) ∧
    (∀ p s, getWritableSizes cap head tail n = some (p, s) → SplitsWrite cap head tail n p s) ∧
    checkedRingBufferSize cap head tail = some (getRingBufferSize cap head tail) ∧
    checkedWritableSizes cap head tail n = some (getWritableSizes cap head tail n) ∧
    checkedReadableSizes cap head tail n = some (getReadableSizes cap head tail n) := by
  refine ⟨⟨getRingBufferSize_lt hh ht, add_size hh ht⟩, ⟨?_, fun hroom => ?_⟩,
    fun p s => splitsWrite hh ht, checkedRingBufferSize_eq hcap hh,
    checkedWritableSizes_eq hcap hh ht n, checkedReadableSizes_eq hcap hh n⟩
  · rintro ⟨p, s, heq⟩
    exact ((getWritableSizes_eq_some ht).mp heq).1
  · exact ⟨_, _, (getWritableSizes_eq_some ht).mpr ⟨hroom, rfl, rfl⟩⟩

/-- A write of four bytes goes around the end of a ring of eight. -/
theorem ringSizes_split_aroundTheEnd :
    getWritableSizes 8 3 6 4 = some (2, 2) ∧ SplitsWrite 8 3 6 4 2 2 := by
  obtain ⟨-, -, hsplits, -⟩ := ringSizes_split (by decide : 8 < 2 ^ 63) (by decide : 3 < 8)
    (by decide : 6 < 8) 4
  exact ⟨by decide, hsplits 2 2 (by decide)⟩

end RatkiniaServer
