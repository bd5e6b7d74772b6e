import Mathlib.Data.List.Basic
import Mathlib.Tactic.Common
import Mathlib.Algebra.GroupWithZero.Nat

/-!
# Length-prefixed framing

A stream is cut into frames, each a header of fixed size followed by a body whose size the header
tells. `Format.parse` is the plain stream parser: the complete frames of a list and the incomplete
frame at its end. Its laws are those a decoder needs that gets the stream in chunks.
-/

namespace Framing

universe u

/-- The shape of the frames over the alphabet `α`. -/
structure Format (α : Type u) where
  /-- The number of elements of a header. -/
  headerSize : Nat
  /-- Headers are not empty. -/
  headerSize_pos : 0 < headerSize
  /-- The number of elements of the body that follows a header. -/
  bodySize : List α → Nat

/-- A frame: its header and its body. -/
abbrev Frame (α : Type u) := List α × List α

namespace Format

variable {α : Type u} (F : Format α)

/-- The first frame of a stream and what follows it, if the frame is complete. -/
def next (xs : List α) : Option (Frame α × List α) :=
  let header := xs.take F.headerSize
  let frameSize := F.headerSize + F.bodySize header
  if F.headerSize ≤ xs.length ∧ frameSize ≤ xs.length then
    some ((header, (xs.drop F.headerSize).take (F.bodySize header)), xs.drop frameSize)
  else none

variable {F} {xs ys rest : List α} {f : Frame α}

theorem next_eq_some_iff : F.next xs = some (f, rest) ↔
    xs = f.1 ++ (f.2 ++ rest) ∧ f.1.length = F.headerSize ∧ f.2.length = F.bodySize f.1 := by
  obtain ⟨header, body⟩ := f
  constructor
  · intro h
    simp only [next] at h
    split_ifs at h with hle
    obtain ⟨⟨rfl, rfl⟩, rfl⟩ : (_ ∧ _) ∧ _ := by simpa using h
    refine ⟨?_, by simp [hle.1], by simp; omega⟩
    rw [← List.drop_drop, List.take_append_drop, List.take_append_drop]
  · rintro ⟨rfl, hheader, hbody⟩
    dsimp only at hheader hbody
    have htake : (header ++ (body ++ rest)).take F.headerSize = header := List.take_left' hheader
    have hdrop : (header ++ (body ++ rest)).drop F.headerSize = body ++ rest :=
      List.drop_left' hheader
    have hlen : F.headerSize ≤ (header ++ (body ++ rest)).length ∧
        F.headerSize + F.bodySize header ≤ (header ++ (body ++ rest)).length := by
      simp only [List.length_append]
      omega
    simp only [next, htake]
    rw [if_pos hlen, hdrop, List.take_left' hbody, ← List.drop_drop, hdrop, List.drop_left' hbody]

theorem next_eq_none_iff : F.next xs = none ↔
    xs.length < F.headerSize ∨ xs.length < F.headerSize + F.bodySize (xs.take F.headerSize) := by
  unfold next
  simp only [ite_eq_right_iff, reduceCtorEq, imp_false]
  omega

theorem length_lt_of_next (h : F.next xs = some (f, rest)) : rest.length < xs.length := by
  obtain ⟨rfl, hheader, -⟩ := next_eq_some_iff.mp h
  have hpos := F.headerSize_pos
  simp only [List.length_append]
  omega

/-- A complete frame does not depend on what follows it. -/
theorem next_append (h : F.next xs = some (f, rest)) : F.next (xs ++ ys) = some (f, rest ++ ys) := by
  obtain ⟨rfl, hheader, hbody⟩ := next_eq_some_iff.mp h
  exact next_eq_some_iff.mpr ⟨by simp, hheader, hbody⟩

variable (F) in
/-- The complete frames of a stream, and the incomplete frame at its end. -/
def parse (xs : List α) : List (Frame α) × List α :=
  match h : F.next xs with
  | none => ([], xs)
  | some (f, rest) =>
    have := length_lt_of_next h
    let r := parse rest
    (f :: r.1, r.2)
termination_by xs.length

theorem parse_of_none (h : F.next xs = none) : F.parse xs = ([], xs) := by
  rw [parse]
  split
  · rfl
  · rename_i h'
    rw [h] at h'
    cases h'

theorem parse_of_some (h : F.next xs = some (f, rest)) :
    F.parse xs = (f :: (F.parse rest).1, (F.parse rest).2) := by
  rw [parse]
  split
  · rename_i h'
    rw [h] at h'
    cases h'
  · rename_i h'
    rw [h] at h'
    cases h'
    rfl

/-- Induction along the frames of a stream. -/
theorem parse_induction {P : List α → Prop} (hnone : ∀ xs, F.next xs = none → P xs)
    (hsome : ∀ xs f rest, F.next xs = some (f, rest) → P rest → P xs) (xs : List α) : P xs := by
  induction hn : xs.length using Nat.strongRecOn generalizing xs with
  | ind n ih =>
    cases h : F.next xs with
    | none => exact hnone xs h
    | some r =>
      subst hn
      exact hsome xs r.1 r.2 h (ih _ (length_lt_of_next h) r.2 rfl)

@[simp] theorem parse_nil : F.parse [] = ([], []) := by
  refine parse_of_none (next_eq_none_iff.mpr (Or.inl ?_))
  simpa using F.headerSize_pos

/-- **Parsing in chunks**: the frames of the first chunk, then those of its incomplete rest together
with the second chunk. -/
theorem parse_append (xs ys : List α) : F.parse (xs ++ ys) =
    ((F.parse xs).1 ++ (F.parse ((F.parse xs).2 ++ ys)).1, (F.parse ((F.parse xs).2 ++ ys)).2) := by
  induction xs using parse_induction (F := F) with
  | hnone xs h => simp [parse_of_none h]
  | hsome xs f rest h ih => rw [parse_of_some (next_append h), parse_of_some h, ih, List.cons_append]

/-! ## Streams of frames -/

variable (F) in
/-- The header and the body have the sizes that the format asks for. -/
def Valid (f : Frame α) : Prop := f.1.length = F.headerSize ∧ f.2.length = F.bodySize f.1

/-- The stream of the given frames. -/
def stream (fs : List (Frame α)) : List α := fs.flatMap fun f => f.1 ++ f.2

theorem next_stream (hf : F.Valid f) (rest : List α) :
    F.next (f.1 ++ (f.2 ++ rest)) = some (f, rest) :=
  next_eq_some_iff.mpr ⟨rfl, hf.1, hf.2⟩

theorem valid_of_next (h : F.next xs = some (f, rest)) : F.Valid f :=
  (next_eq_some_iff.mp h).2

@[simp] theorem stream_append (fs gs : List (Frame α)) :
    stream (fs ++ gs) = stream fs ++ stream gs := List.flatMap_append

@[simp] theorem stream_singleton (f : Frame α) : stream [f] = f.1 ++ f.2 := by simp [stream]

/-- What is parsed are frames of the format. -/
theorem valid_of_mem_parse (hf : f ∈ (F.parse xs).1) : F.Valid f := by
  induction xs using parse_induction (F := F) with
  | hnone xs h => simp [parse_of_none h] at hf
  | hsome xs g rest h ih =>
    rw [parse_of_some h] at hf
    rcases List.mem_cons.mp hf with rfl | hf
    · exact valid_of_next h
    · exact ih hf

/-- The frames that are parsed and the incomplete rest make up the stream. -/
theorem stream_parse_append (xs : List α) : stream (F.parse xs).1 ++ (F.parse xs).2 = xs := by
  induction xs using parse_induction (F := F) with
  | hnone xs h => simp [parse_of_none h, stream]
  | hsome xs f rest h ih =>
    have hxs := (next_eq_some_iff.mp h).1
    rw [parse_of_some h]
    change stream ([f] ++ (F.parse rest).1) ++ (F.parse rest).2 = xs
    rw [stream_append, stream_singleton, List.append_assoc, ih, List.append_assoc, ← hxs]

theorem length_stream {fs : List (Frame α)} (hfs : ∀ f ∈ fs, F.Valid f) :
    (stream fs).length = (fs.map fun f => F.headerSize + f.2.length).sum := by
  induction fs with
  | nil => rfl
  | cons f fs ih =>
    have ih' := ih fun g hg => hfs g (List.mem_cons_of_mem _ hg)
    simp only [stream, List.flatMap_cons, List.length_append, List.map_cons, List.sum_cons] at ih' ⊢
    rw [ih', (hfs f (List.mem_cons_self ..)).1]

/-- The frames of a stream of frames come first. -/
theorem parse_stream_append {fs : List (Frame α)} (hfs : ∀ f ∈ fs, F.Valid f) (rest : List α) :
    F.parse (stream fs ++ rest) = (fs ++ (F.parse rest).1, (F.parse rest).2) := by
  induction fs with
  | nil => rfl
  | cons f fs ih =>
    have ih' := ih fun g hg => hfs g (List.mem_cons_of_mem _ hg)
    have hnext := next_stream (hfs f (List.mem_cons_self ..)) (stream fs ++ rest)
    rw [← List.append_assoc, ← List.append_assoc] at hnext
    change F.parse ((f.1 ++ f.2 ++ stream fs) ++ rest) = _
    rw [parse_of_some hnext, ih', List.cons_append]

end Format

end Framing
