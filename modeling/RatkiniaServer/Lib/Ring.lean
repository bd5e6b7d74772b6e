import Mathlib.Data.List.Basic
import Mathlib.Tactic.Common

/-!
# Cyclic buffers

A buffer is a map from positions to elements; a ring uses the positions below a capacity `cap`
cyclically. `content cap buf head n` is the list of the `n` elements from `head` on, around the end.
Programs move elements in contiguous pieces: `slice` reads one and `write` overwrites one. The rules
say how contiguous pieces make up a content, and that writing a piece behind the content appends it.
-/

namespace Ring

universe u

variable {α : Type u}

/-- The `n` elements from the position `pos` on. -/
def slice (buf : Nat → α) (pos n : Nat) : List α := (List.range n).map fun i => buf (pos + i)

/-- Overwrite the elements from the position `pos` on. -/
def write (buf : Nat → α) (pos : Nat) (xs : List α) (i : Nat) : α :=
  if h : pos ≤ i ∧ i - pos < xs.length then xs[i - pos] else buf i

/-- The `n` elements from `head` on, around the end of the ring. -/
def content (cap : Nat) (buf : Nat → α) (head n : Nat) : List α :=
  (List.range n).map fun i => buf ((head + i) % cap)

/-- The number of elements from `head` to `tail`, around the end of the ring. -/
def size (cap head tail : Nat) : Nat := if head ≤ tail then tail - head else cap - head + tail

variable {cap head tail pos n m : Nat} {buf : Nat → α} {xs : List α}

/-! ## Positions -/

/-- A position that is at most once around the ring. -/
theorem add_mod_eq (hh : head < cap) (hn : n ≤ cap) :
    (head + n) % cap = if head + n < cap then head + n else head + n - cap := by
  split_ifs with hlt
  · exact Nat.mod_eq_of_lt hlt
  · rw [Nat.mod_eq_sub_mod (by omega)]
    exact Nat.mod_eq_of_lt (by omega)

theorem size_lt (hh : head < cap) (ht : tail < cap) : size cap head tail < cap := by
  unfold size
  split_ifs <;> omega

@[simp] theorem size_self : size cap head head = 0 := by simp [size]

/-- The size is what has to be added to the head to get the tail. -/
theorem add_size (hh : head < cap) (ht : tail < cap) : (head + size cap head tail) % cap = tail := by
  rw [add_mod_eq hh (Nat.le_of_lt (size_lt hh ht))]
  unfold size
  split_ifs <;> omega

/-- The size of a ring whose tail is `n` elements ahead. -/
theorem size_add (hh : head < cap) (hn : n < cap) : size cap head ((head + n) % cap) = n := by
  rw [add_mod_eq hh (Nat.le_of_lt hn)]
  unfold size
  split_ifs <;> omega

/-- The size after the head has advanced. -/
theorem size_advance (hh : head < cap) (ht : tail < cap) (hm : m ≤ size cap head tail) :
    size cap ((head + m) % cap) tail = size cap head tail - m := by
  have hlt := size_lt hh ht
  rw [add_mod_eq hh (by omega)]
  unfold size at *
  split_ifs at * <;> omega

/-- The size after the tail has advanced, if the ring has room. -/
theorem size_extend (hh : head < cap) (ht : tail < cap) (hn : size cap head tail + n < cap) :
    size cap head ((tail + n) % cap) = size cap head tail + n := by
  rw [add_mod_eq ht (by omega)]
  unfold size at *
  split_ifs at * <;> omega

/-- The positions before a tail that is moved on are those before the old one and those passed. -/
theorem lt_size_or_exists {k : Nat} (hh : head < cap) (ht : tail < cap)
    (hk : k < size cap head ((tail + n) % cap)) :
    k < size cap head tail ∨ ∃ j < n, (head + k) % cap = (tail + j) % cap := by
  by_cases hlt : k < size cap head tail
  · exact Or.inl hlt
  · have hadd (m : Nat) : (tail + m) % cap = (head + (size cap head tail + m)) % cap := by
      rw [← Nat.add_assoc, ← Nat.mod_add_mod (head + size cap head tail), add_size hh ht]
    have hcap : 0 < cap := Nat.zero_lt_of_lt hh
    rw [hadd, ← Nat.add_mod_mod, size_add hh (Nat.mod_lt _ hcap)] at hk
    have hle := Nat.mod_le (size cap head tail + n) cap
    refine Or.inr ⟨k - size cap head tail, by omega, ?_⟩
    rw [hadd, Nat.add_sub_cancel' (Nat.le_of_not_lt hlt)]

/-! ## Pieces -/

@[simp] theorem length_slice : (slice buf pos n).length = n := by simp [slice]

@[simp] theorem length_content : (content cap buf head n).length = n := by simp [content]

@[simp] theorem slice_zero : slice buf pos 0 = [] := rfl

@[simp] theorem content_zero : content cap buf head 0 = [] := rfl

theorem getElem_slice {i : Nat} (h : i < (slice buf pos n).length) :
    (slice buf pos n)[i] = buf (pos + i) := by
  simp [slice]

theorem getElem?_slice {i : Nat} (h : i < n) : (slice buf pos n)[i]? = some (buf (pos + i)) := by
  rw [List.getElem?_eq_getElem (by rw [length_slice]; exact h), getElem_slice]

/-- Within the ring a slice is a content. -/
theorem slice_eq_content (h : pos + n ≤ cap) : slice buf pos n = content cap buf pos n := by
  refine List.map_congr_left fun i hi => ?_
  have hlt := List.mem_range.mp hi
  rw [Nat.mod_eq_of_lt (by omega)]

/-- A content in two pieces. -/
theorem content_add (cap : Nat) (buf : Nat → α) (head m n : Nat) : content cap buf head (m + n) =
    content cap buf head m ++ content cap buf (head + m) n := by
  simp only [content, List.range_add, List.map_append, List.map_map]
  congr 1
  refine List.map_congr_left fun i _ => ?_
  rw [Function.comp_apply, Nat.add_assoc]

/-- Where the head stands counts only around the ring. -/
@[simp] theorem content_mod (cap : Nat) (buf : Nat → α) (head n : Nat) :
    content cap buf (head % cap) n = content cap buf head n := by
  refine List.map_congr_left fun i _ => ?_
  rw [Nat.mod_add_mod]

theorem drop_content (h : m ≤ n) :
    (content cap buf head n).drop m = content cap buf (head + m) (n - m) := by
  have hadd := content_add cap buf head m (n - m)
  rw [show m + (n - m) = n by omega] at hadd
  rw [hadd, List.drop_left' length_content]

theorem take_content (h : m ≤ n) :
    (content cap buf head n).take m = content cap buf head m := by
  have hadd := content_add cap buf head m (n - m)
  rw [show m + (n - m) = n by omega] at hadd
  rw [hadd, List.take_left' length_content]

/-- **Reading in two pieces**: up to the end of the ring, and the rest from its start. -/
theorem content_eq_slices (hh : head < cap) (hn : n ≤ cap) : content cap buf head n =
    slice buf head (min n (cap - head)) ++ slice buf 0 (n - min n (cap - head)) := by
  have hadd := content_add cap buf head (min n (cap - head))
    (n - min n (cap - head))
  rw [show min n (cap - head) + (n - min n (cap - head)) = n by omega] at hadd
  have hfirst : slice buf head (min n (cap - head)) = content cap buf head (min n (cap - head)) :=
    slice_eq_content (by omega)
  have hsecond : slice buf 0 (n - min n (cap - head)) =
      content cap buf 0 (n - min n (cap - head)) := slice_eq_content (by omega)
  rw [hadd, hfirst, hsecond]
  congr 1
  by_cases hle : n ≤ cap - head
  · rw [show n - min n (cap - head) = 0 by omega, content_zero, content_zero]
  · rw [show head + min n (cap - head) = cap by omega, ← content_mod cap buf cap, Nat.mod_self]

/-! ## Writing -/

theorem write_of_lt {i : Nat} (h : i < pos) : write buf pos xs i = buf i := by
  unfold write
  exact dif_neg (by omega)

theorem write_of_le {i : Nat} (h : pos + xs.length ≤ i) : write buf pos xs i = buf i := by
  unfold write
  exact dif_neg (by omega)

theorem write_add {j : Nat} (h : j < xs.length) : write buf pos xs (pos + j) = xs[j] := by
  unfold write
  rw [dif_pos (by omega)]
  simp

@[simp] theorem write_self {x : α} : write buf pos [x] pos = x := by simp [write]

/-- Writing leaves an element alone or puts one of the list there. -/
theorem write_eq_or_mem (buf : Nat → α) (pos : Nat) (xs : List α) (i : Nat) :
    write buf pos xs i = buf i ∨ write buf pos xs i ∈ xs := by
  unfold write
  split
  · exact Or.inr (List.getElem_mem ..)
  · exact Or.inl rfl

theorem slice_congr {buf' : Nat → α} (h : ∀ i, pos ≤ i → i < pos + n → buf' i = buf i) :
    slice buf' pos n = slice buf pos n :=
  List.map_congr_left fun i hi =>
    h (pos + i) (Nat.le_add_right pos i) (Nat.add_lt_add_left (List.mem_range.mp hi) pos)

/-- Writing behind a piece leaves it alone. -/
theorem slice_write_of_le {start : Nat} (h : start + n ≤ pos) :
    slice (write buf pos xs) start n = slice buf start n :=
  slice_congr fun _ _ hi => write_of_lt (Nat.lt_of_lt_of_le hi h)

theorem slice_write : slice (write buf pos xs) pos xs.length = xs := by
  refine List.ext_getElem length_slice fun i h1 h2 => ?_
  rw [getElem_slice, write, dif_pos (by simpa using h2)]
  simp

/-- Writing behind a content leaves it alone, if there is room. -/
theorem content_write_frame (hh : head < cap) (hpos : pos = (head + n) % cap)
    (hroom : n + xs.length ≤ cap) : content cap (write buf pos xs) head n =
      content cap buf head n := by
  refine List.map_congr_left fun i hi => ?_
  have hlt := List.mem_range.mp hi
  rw [add_mod_eq hh (by omega)] at hpos
  rw [add_mod_eq hh (by omega)]
  by_cases hbefore : (if head + i < cap then head + i else head + i - cap) < pos
  · exact write_of_lt hbefore
  · refine write_of_le ?_
    split_ifs at * <;> omega

/-- **Writing behind a content** appends to it. -/
theorem content_write (hh : head < cap) (hpos : pos = (head + n) % cap)
    (hroom : n + xs.length ≤ cap) (hend : pos + xs.length ≤ cap) :
    content cap (write buf pos xs) head (n + xs.length) = content cap buf head n ++ xs := by
  rw [content_add, content_write_frame hh hpos hroom, ← content_mod cap _ (head + n), ← hpos,
    ← slice_eq_content hend, slice_write]

@[simp] theorem write_nil : write buf pos [] = buf := funext fun i => dif_neg (by simp)

/-- Writing a list in two parts. -/
theorem write_append (buf : Nat → α) (pos : Nat) (xs ys : List α) :
    write (write buf pos xs) (pos + xs.length) ys = write buf pos (xs ++ ys) := by
  funext i
  unfold write
  by_cases hfirst : pos ≤ i ∧ i - pos < xs.length
  · rw [dif_neg (by omega), dif_pos hfirst, dif_pos ⟨hfirst.1, by rw [List.length_append]; omega⟩,
      List.getElem_append_left]
  · by_cases hsecond : pos + xs.length ≤ i ∧ i - (pos + xs.length) < ys.length
    · rw [dif_pos hsecond, dif_pos ⟨by omega, by rw [List.length_append]; omega⟩,
        List.getElem_append_right (by omega)]
      congr 1
      omega
    · rw [dif_neg hsecond, dif_neg hfirst, dif_neg (by rw [List.length_append]; omega)]

/-- **Writing in two pieces**: up to the end of the ring, and the rest from its start. -/
theorem content_write_pieces {p : Nat} (hh : head < cap) (hpos : pos = (head + n) % cap)
    (hroom : n + xs.length ≤ cap) (hp : p = min xs.length (cap - pos)) :
    content cap (write (write buf pos (xs.take p)) 0 (xs.drop p)) head (n + xs.length) =
      content cap buf head n ++ xs := by
  have hlt : pos < cap := hpos ▸ Nat.mod_lt _ (Nat.zero_lt_of_lt hh)
  have htake : (xs.take p).length = p := by
    rw [List.length_take]
    omega
  have hfirst : content cap (write buf pos (xs.take p)) head (n + (xs.take p).length) =
      content cap buf head n ++ xs.take p :=
    content_write hh hpos (by omega) (by omega)
  rw [htake] at hfirst
  by_cases hle : xs.length ≤ cap - pos
  · rw [Nat.min_eq_left hle] at hp
    rw [hp, List.drop_length, write_nil, ← hp, hfirst, hp, List.take_length]
  · have hend : pos + p = cap := by omega
    have hstart : 0 = (head + (n + p)) % cap := by
      rw [← Nat.add_assoc, ← Nat.mod_add_mod, ← hpos, hend, Nat.mod_self]
    have hdrop : (xs.drop p).length = xs.length - p := List.length_drop
    have hsecond : content cap (write (write buf pos (xs.take p)) 0 (xs.drop p)) head
        (n + p + (xs.drop p).length) =
        content cap (write buf pos (xs.take p)) head (n + p) ++ xs.drop p :=
      content_write hh hstart (by omega) (by omega)
    rw [hdrop, show n + p + (xs.length - p) = n + xs.length by omega] at hsecond
    rw [hsecond, hfirst, List.append_assoc, List.take_append_drop]

/-- Writing what is there already. -/
theorem write_eq_self_iff : write buf pos xs = buf ↔ slice buf pos xs.length = xs := by
  constructor
  · intro h
    rw [← h, slice_write]
  · intro h
    funext i
    unfold write
    split_ifs with hi
    · have hget := congrArg (·[i - pos]?) h
      rw [getElem?_slice hi.2, List.getElem?_eq_getElem hi.2, Nat.add_sub_cancel' hi.1] at hget
      exact (Option.some.inj hget).symm
    · rfl

/-! ## What a ring holds -/

/-- The ring from `head` to `tail` holds the list `xs`. -/
structure Holds (cap : Nat) (buf : Nat → α) (head tail : Nat) (xs : List α) : Prop where
  /-- The head is a position of the ring. -/
  head_lt : head < cap
  /-- The tail is a position of the ring. -/
  tail_lt : tail < cap
  /-- The elements in between. -/
  content_eq : content cap buf head (size cap head tail) = xs

theorem holds_empty (hh : head < cap) : Holds cap buf head head [] := ⟨hh, hh, by simp⟩

namespace Holds

theorem size_eq (h : Holds cap buf head tail xs) : size cap head tail = xs.length := by
  rw [← h.content_eq, length_content]

theorem length_lt (h : Holds cap buf head tail xs) : xs.length < cap :=
  h.size_eq ▸ size_lt h.head_lt h.tail_lt

theorem tail_eq (h : Holds cap buf head tail xs) : (head + xs.length) % cap = tail :=
  h.size_eq ▸ add_size h.head_lt h.tail_lt

theorem eq_nil_iff (h : Holds cap buf head tail xs) : xs = [] ↔ head = tail := by
  have hh := h.head_lt
  have ht := h.tail_lt
  rw [← List.length_eq_zero_iff, ← h.size_eq]
  unfold size
  split_ifs <;> omega

/-- Writing a contiguous piece at the tail and advancing the tail appends the piece, as long as the
ring does not fill up completely. -/
theorem enqueue (h : Holds cap buf head tail xs) (ys : List α)
    (hroom : xs.length + ys.length < cap) (hend : tail + ys.length ≤ cap) :
    Holds cap (write buf tail ys) head ((tail + ys.length) % cap) (xs ++ ys) := by
  have hsize := h.size_eq
  refine ⟨h.head_lt, Nat.mod_lt _ (by have := h.head_lt; omega), ?_⟩
  rw [size_extend h.head_lt h.tail_lt (by omega), hsize,
    content_write h.head_lt h.tail_eq.symm (by omega) hend, ← hsize, h.content_eq]

/-- Writing in two pieces at the tail and advancing the tail appends both. -/
theorem enqueue_pieces {p : Nat} (h : Holds cap buf head tail xs) (ys : List α)
    (hroom : xs.length + ys.length < cap) (hp : p = min ys.length (cap - tail)) :
    Holds cap (write (write buf tail (ys.take p)) 0 (ys.drop p)) head ((tail + ys.length) % cap)
      (xs ++ ys) := by
  have hsize := h.size_eq
  refine ⟨h.head_lt, Nat.mod_lt _ (by have := h.head_lt; omega), ?_⟩
  rw [size_extend h.head_lt h.tail_lt (by omega), hsize,
    content_write_pieces h.head_lt h.tail_eq.symm (by omega) hp, ← hsize, h.content_eq]

/-- Advancing the head drops what it passes. -/
theorem dequeue (h : Holds cap buf head tail xs) (hm : m ≤ xs.length) :
    Holds cap buf ((head + m) % cap) tail (xs.drop m) := by
  have hsize := h.size_eq
  refine ⟨Nat.mod_lt _ (by have := h.head_lt; omega), h.tail_lt, ?_⟩
  rw [size_advance h.head_lt h.tail_lt (by omega), content_mod, ← drop_content (by omega),
    h.content_eq]

/-- A contiguous piece at the head is the front of the list. -/
theorem slice_eq (h : Holds cap buf head tail xs) (hm : m ≤ xs.length) (hend : head + m ≤ cap) :
    slice buf head m = xs.take m := by
  rw [slice_eq_content hend, ← h.content_eq, take_content (by rw [h.size_eq]; exact hm)]

/-- The contiguous piece that starts at the head and goes up to the tail or the end of the ring. -/
theorem piece_le (h : Holds cap buf head tail xs) :
    (if head ≤ tail then tail - head else cap - head) ≤ xs.length ∧
    head + (if head ≤ tail then tail - head else cap - head) ≤ cap ∧
    ((if head ≤ tail then tail - head else cap - head) = 0 ↔ xs = []) := by
  have hh := h.head_lt
  have ht := h.tail_lt
  rw [← List.length_eq_zero_iff, ← h.size_eq]
  unfold size
  refine ⟨?_, ?_, ?_⟩ <;> split_ifs <;> omega

/-- A front part of the list, held up to where it ends. -/
theorem front {ys : List α} (h : Holds cap buf head tail (xs ++ ys)) :
    Holds cap buf head ((head + xs.length) % cap) xs := by
  have hlt := h.length_lt
  rw [List.length_append] at hlt
  refine ⟨h.head_lt, Nat.mod_lt _ (by omega), ?_⟩
  rw [size_add h.head_lt (by omega), ← take_content (n := size cap head tail), h.content_eq,
    List.take_left]
  rw [h.size_eq, List.length_append]
  omega

end Holds

/-! ## A ring as a window on a stream -/

/-- The ring holds the elements of the stream `xs` from the index `lo` on, each at the position its
index has around the ring. -/
structure Window (cap : Nat) (buf : Nat → α) (lo : Nat) (xs : List α) : Prop where
  /-- The window begins in the stream. -/
  le : lo ≤ xs.length
  /-- The ring holds the rest of the stream. -/
  holds : Holds cap buf (lo % cap) (xs.length % cap) (xs.drop lo)

theorem window_nil (hcap : 0 < cap) : Window cap buf 0 ([] : List α) :=
  ⟨Nat.le_refl _, by simpa using holds_empty (Nat.mod_lt 0 hcap)⟩

namespace Window

variable {lo : Nat}

theorem size_eq (h : Window cap buf lo xs) :
    size cap (lo % cap) (xs.length % cap) = xs.length - lo := by
  rw [h.holds.size_eq, List.length_drop]

/-- The window may shrink at its front. -/
theorem advance {hi : Nat} (h : Window cap buf lo xs) (hlo : lo ≤ hi) (hhi : hi ≤ xs.length) :
    Window cap buf hi xs := by
  refine ⟨hhi, ?_⟩
  have hnext := h.holds.dequeue (m := hi - lo) (by rw [List.length_drop]; omega)
  rwa [Nat.mod_add_mod, List.drop_drop, Nat.add_sub_cancel' hlo] at hnext

/-- The window may shrink at its end. -/
theorem truncate {ys : List α} (h : Window cap buf lo (xs ++ ys)) (hle : lo ≤ xs.length) :
    Window cap buf lo xs := by
  have hholds := h.holds
  rw [List.drop_append_of_le_length hle] at hholds
  have hfront := hholds.front
  rw [Nat.mod_add_mod, List.length_drop, Nat.add_sub_cancel' hle] at hfront
  exact ⟨hle, hfront⟩

/-- Writing a contiguous piece where the stream ends extends the stream, as long as the ring does not
fill up completely. -/
theorem extend (h : Window cap buf lo xs) (ys : List α)
    (hroom : xs.length - lo + ys.length < cap) (hend : xs.length % cap + ys.length ≤ cap) :
    Window cap (write buf (xs.length % cap) ys) lo (xs ++ ys) := by
  have hnext := h.holds.enqueue ys (by rw [List.length_drop]; exact hroom) hend
  rw [Nat.mod_add_mod, ← List.length_append, ← List.drop_append_of_le_length h.le] at hnext
  exact ⟨by rw [List.length_append]; exact Nat.le_add_right_of_le h.le, hnext⟩

/-- A producer that knows an old front of the window and has written `ws` behind the stream may write
more, and does no harm to the window. -/
theorem extend_behind {hi : Nat} {ws : List α} (h : Window cap buf lo (xs ++ ws)) (ys : List α)
    (hlo : lo ≤ hi) (hhi : hi ≤ xs.length) (hroom : (xs ++ ws).length - lo + ys.length < cap)
    (hend : (xs ++ ws).length % cap + ys.length ≤ cap) :
    Window cap (write buf ((xs ++ ws).length % cap) ys) lo (xs ++ (ws ++ ys)) ∧
      Window cap (write buf ((xs ++ ws).length % cap) ys) hi xs := by
  have hnext := h.extend ys hroom hend
  rw [List.append_assoc] at hnext
  exact ⟨hnext, (hnext.truncate (Nat.le_trans hlo hhi)).advance hlo hhi⟩

/-- Each element of the stream that the window shows, at its position. -/
theorem apply_mod {j : Nat} (h : Window cap buf lo xs) (hlo : lo ≤ j) (hj : j < xs.length) :
    buf (j % cap) = xs[j] := by
  have hcontent := h.holds.content_eq
  rw [h.size_eq, content_mod] at hcontent
  have hi : j - lo < (content cap buf lo (xs.length - lo)).length := by
    rw [length_content]
    omega
  have hget := List.getElem_of_eq hcontent hi
  simpa [content, Nat.add_sub_cancel' hlo] using hget

/-- The elements at the front of the window, around the end of the ring. -/
theorem content_eq (h : Window cap buf lo xs) (hm : lo + m ≤ xs.length) :
    content cap buf (lo % cap) m = (xs.drop lo).take m := by
  rw [← h.holds.content_eq, take_content]
  rw [h.size_eq]
  omega

/-- A contiguous piece at the front of the window. -/
theorem slice_eq (h : Window cap buf lo xs) (hm : lo + m ≤ xs.length)
    (hend : lo % cap + m ≤ cap) : slice buf (lo % cap) m = (xs.drop lo).take m :=
  h.holds.slice_eq (by rw [List.length_drop]; omega) hend

end Window

end Ring
