import Mathlib.Init

/-!
# `MakeIterableFromThis`

The iteration of `Util/MemoryPool/MakeIterableFromThis.h` over the dense blocks of a container. An
iterator is a 32-bit dense index, and every iterator at or beyond `count_` is equal to `end()`.
-/

namespace RatkiniaServer.MemoryPool.MakeIterableFromThis

universe u v

variable {α : Type u} {σ : Type v}

/-- The loop `for (auto it = begin(); it != end(); ++it)` from the iterator at `denseIndex`: the pairs
`*it` that it visits, or `none` if a pair cannot be read or it has not ended after `fuel`
increments. -/
def iterateFrom (count : Nat) (pair : UInt32 → Option (UInt32 × α)) :
    Nat → UInt32 → Option (List (UInt32 × α))
  | fuel, denseIndex =>
    if count ≤ denseIndex.toNat then some []
    else
      match fuel with
      | 0 => none
      | fuel + 1 =>
        (pair denseIndex).bind fun p =>
          (iterateFrom count pair fuel (denseIndex + 1)).map fun pairs => p :: pairs

/-- The iteration from `begin()` to `end()`. -/
def iterate (count : Nat) (pair : UInt32 → Option (UInt32 × α)) (fuel : Nat) :
    Option (List (UInt32 × α)) :=
  iterateFrom count pair fuel 0

/-! ## Erasing in a loop -/

/-- What a loop that erases uses of a container; `get` distinguishes a failed read, a null pointer and
an element. -/
structure Container (σ : Type v) (α : Type u) where
  count : σ → Nat
  getPairOfSparseIndexAndDataByDenseIndex : σ → UInt32 → Option (UInt32 × α)
  eraseBySparseIndex : σ → UInt32 → Option σ
  get : σ → UInt32 → Option (Option α)

/-- `operator++` of the non-const iterator: the dense index, and what becomes of the container's
`shouldInvalidateIterator_`. -/
def increment (denseIndex : UInt32) (shouldInvalidateIterator : Bool) : UInt32 × Bool :=
  (denseIndex + 1 - if shouldInvalidateIterator then 1 else 0, false)

/-- The rest of a non-const range-for loop that calls `EraseBySparseIndex` on each element for which
the predicate holds: the pairs `*it` it visits and the container after it, or `none` if a read or a
check fails or it has not ended after `fuel` increments. `EraseBySparseIndex` does not write
`shouldInvalidateIterator_`. -/
def eraseIfFrom (C : Container σ α) (pred : UInt32 × α → Bool) (fuel : Nat) (s : σ)
    (shouldInvalidateIterator : Bool) (denseIndex : UInt32) : Option (List (UInt32 × α) × σ) :=
  if C.count s ≤ denseIndex.toNat then some ([], s)
  else
    match fuel with
    | 0 => none
    | fuel + 1 =>
      (C.getPairOfSparseIndexAndDataByDenseIndex s denseIndex).bind fun e =>
        (if pred e then C.eraseBySparseIndex s e.1 else some s).bind fun s =>
          let (denseIndex, shouldInvalidateIterator) := increment denseIndex shouldInvalidateIterator
          (eraseIfFrom C pred fuel s shouldInvalidateIterator denseIndex).map
            fun (visited, s) => (e :: visited, s)

/-- The loop from `begin()`. The containers declare a `shouldInvalidateIterator_` of their own, which
is the one that `operator++` sees; their constructors set it to false. -/
def eraseIf (C : Container σ α) (pred : UInt32 × α → Bool) (fuel : Nat) (s : σ) :
    Option (List (UInt32 × α) × σ) :=
  eraseIfFrom C pred fuel s false 0

end RatkiniaServer.MemoryPool.MakeIterableFromThis
