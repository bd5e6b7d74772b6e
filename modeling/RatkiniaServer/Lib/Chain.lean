import Mathlib.Data.List.Nodup
import Mathlib.Logic.Function.Basic

/-!
# Chains of nodes

A heap of nodes with one pointer each, `next : ι → Option ι`. `nth next h k` is the node that `k` steps
along the pointers lead to from the pointer `h`, and `Chain next h xs` says that these nodes are `xs`,
up to a null pointer. The rules say what the operations of a stack do to a chain: its head is popped,
or a node is linked to it and then pushed.
-/

namespace Chains

universe u

variable {ι : Type u}

/-- The node `k` steps behind the pointer `h`. -/
def nth (next : ι → Option ι) : Option ι → Nat → Option ι
  | h, 0 => h
  | h, k + 1 => nth next (h.bind next) k

/-- Following the pointers from `h` visits the nodes `xs` and ends in a null pointer. -/
def Chain (next : ι → Option ι) : Option ι → List ι → Prop
  | h, [] => h = none
  | h, x :: xs => h = some x ∧ Chain next (next x) xs

variable {next next' : ι → Option ι} {h : Option ι} {x : ι} {xs ys : List ι}

theorem nth_none (k : Nat) : nth next none k = none := by
  induction k with
  | zero => rfl
  | succ k ih => exact ih

theorem Chain.nth_eq (hc : Chain next h xs) (k : Nat) : nth next h k = xs[k]? := by
  induction xs generalizing h k with
  | nil =>
    rw [show h = none from hc, nth_none, List.getElem?_nil]
  | cons x xs ih =>
    obtain ⟨rfl, htail⟩ := hc
    cases k with
    | zero => rfl
    | succ k => exact ih htail k

/-- A chain is determined by the pointer it starts from. -/
theorem Chain.unique (hx : Chain next h xs) (hy : Chain next h ys) : xs = ys := by
  refine List.ext_getElem? fun k => ?_
  rw [← hx.nth_eq, ← hy.nth_eq]

/-- The part of a chain behind one of its nodes. -/
theorem Chain.behind (hc : Chain next h (ys ++ x :: xs)) : Chain next (some x) (x :: xs) := by
  induction ys generalizing h with
  | nil => exact ⟨rfl, hc.2⟩
  | cons y ys ih => exact ih hc.2

/-- No node occurs twice: the chain from its second occurrence would be the chain from its first. -/
theorem Chain.nodup (hc : Chain next h xs) : xs.Nodup := by
  induction xs generalizing h with
  | nil => exact List.nodup_nil
  | cons x xs ih =>
    refine List.nodup_cons.mpr ⟨fun hmem => ?_, ih hc.2⟩
    obtain ⟨as, bs, rfl⟩ := List.append_of_mem hmem
    have hsame : x :: bs = x :: (as ++ x :: bs) := hc.2.behind.unique ⟨rfl, hc.2⟩
    have hlen := congrArg List.length hsame
    simp only [List.length_cons, List.length_append] at hlen
    omega

/-- A chain depends on the pointers of its nodes only. -/
theorem Chain.frame (hc : Chain next h xs) (hsame : ∀ y ∈ xs, next' y = next y) :
    Chain next' h xs := by
  induction xs generalizing h with
  | nil => exact hc
  | cons x xs ih =>
    obtain ⟨rfl, htail⟩ := hc
    refine ⟨rfl, ?_⟩
    rw [hsame x (List.mem_cons_self ..)]
    exact ih htail fun y hy => hsame y (List.mem_cons_of_mem _ hy)

/-- The pointer of a node outside of the chain may be overwritten. -/
theorem Chain.update [DecidableEq ι] (hc : Chain next h xs) (hx : x ∉ xs) (p : Option ι) :
    Chain (Function.update next x p) h xs := by
  refine hc.frame fun y hy => Function.update_of_ne ?_ _ _
  rintro rfl
  exact hx hy

/-- A pointer to a node heads the chain that this node begins. -/
theorem Chain.eq_cons (hc : Chain next (some x) xs) : ∃ ys, xs = x :: ys ∧ Chain next (next x) ys := by
  cases xs with
  | nil => cases hc
  | cons y ys =>
    obtain ⟨heq, htail⟩ := hc
    obtain rfl := Option.some.inj heq
    exact ⟨ys, rfl, htail⟩

/-- A node that is linked to the chain is pushed. -/
theorem Chain.push (hc : Chain next h xs) (hlink : next x = h) : Chain next (some x) (x :: xs) :=
  ⟨rfl, hlink ▸ hc⟩

end Chains
