import Mathlib.Data.List.Nodup
import Mathlib.Logic.Function.Basic

/-!
# Intrusive doubly linked lists

A heap of nodes is a pair of pointer maps `next prev : ι → Option ι`. `Linked next prev p h xs` says
that the pointer `h` heads the chain `xs`: following `next` from `h` visits exactly `xs` and ends in
a null pointer, every node but the first has its predecessor in `prev`, and the first one has `p`
there. A well-formed list has `p = none`; keeping `p` a parameter lets a list be described whose head
carries a stale back pointer.

The rules say what the pointer surgery of the usual operations does to a chain: pushing a node in
front, unlinking the head, and splicing a chain in behind a node, of which unlinking an inner node
and prepending a whole chain are the two uses.
-/

namespace LinkedList

universe u

variable {ι : Type u}

/-- The pointer `h` heads the chain `xs`, whose first node has the back pointer `p`. -/
def Linked (next prev : ι → Option ι) : Option ι → Option ι → List ι → Prop
  | _, h, [] => h = none
  | p, h, x :: xs => h = some x ∧ prev x = p ∧ Linked next prev (some x) (next x) xs

variable {next prev next' prev' : ι → Option ι} {p q h m r : Option ι} {x y z : ι}
  {xs ys zs : List ι}

@[simp] theorem linked_nil : Linked next prev p h [] ↔ h = none := Iff.rfl

/-- The head pointer of a chain points to its first node. -/
theorem Linked.head_eq (hl : Linked next prev p h xs) : h = xs.head? := by
  cases xs with
  | nil => exact hl
  | cons x xs => exact hl.1

/-- The part of a chain behind one of its nodes is itself a chain. -/
theorem Linked.behind (hl : Linked next prev p h (xs ++ x :: ys)) :
    Linked next prev (some x) (next x) ys := by
  induction xs generalizing p h with
  | nil => exact hl.2.2
  | cons z zs ih => exact ih hl.2.2

/-- The back pointer of a node that has a predecessor is that predecessor. -/
theorem Linked.prev_eq (hl : Linked next prev p h (xs ++ y :: x :: ys)) : prev x = some y :=
  hl.behind.2.1

/-- A chain is determined by the pointer it starts from. -/
theorem Linked.unique (hx : Linked next prev p h xs) (hy : Linked next prev q h ys) : xs = ys := by
  induction xs generalizing p q h ys with
  | nil =>
    cases ys with
    | nil => rfl
    | cons y ys => exact absurd (hx.symm.trans hy.1) (by simp)
  | cons x xs ih =>
    cases ys with
    | nil => exact absurd (hx.1.symm.trans hy) (by simp)
    | cons y ys =>
      obtain ⟨hxe, -, hxt⟩ := hx
      obtain ⟨hye, -, hyt⟩ := hy
      have hxy : x = y := Option.some.inj (hxe.symm.trans hye)
      subst hxy
      rw [ih hxt hyt]

/-- No node occurs twice: the chain behind its second occurrence would have to be the same as the
longer one behind its first. -/
theorem Linked.nodup (hl : Linked next prev p h xs) : xs.Nodup := by
  induction xs generalizing p h with
  | nil => exact List.nodup_nil
  | cons x xs ih =>
    refine List.nodup_cons.mpr ⟨fun hmem => ?_, ih hl.2.2⟩
    obtain ⟨as, bs, rfl⟩ := List.append_of_mem hmem
    have hlen := congrArg List.length (hl.2.2.unique hl.2.2.behind)
    simp at hlen
    omega

/-- In a chain whose head has a null back pointer, only the head has one. -/
theorem Linked.prev_eq_none_iff (hl : Linked next prev none h xs) (hx : x ∈ xs) :
    prev x = none ↔ xs.head? = some x := by
  obtain ⟨as, bs, rfl⟩ := List.append_of_mem hx
  rcases List.eq_nil_or_concat as with rfl | ⟨as', y, rfl⟩
  · exact ⟨fun _ => rfl, fun _ => hl.2.1⟩
  · rw [List.concat_eq_append, List.append_assoc] at *
    have hnd := hl.nodup
    rw [hl.prev_eq]
    refine ⟨fun h => absurd h (by simp), fun hhead => ?_⟩
    obtain ⟨zs, hzs⟩ := List.head?_eq_some_iff.mp hhead
    cases as' with
    | nil =>
      rw [List.nil_append, List.singleton_append, List.cons.injEq] at hzs
      rw [hzs.1] at hnd
      simp at hnd
    | cons z zs' =>
      rw [List.cons_append, List.cons.injEq] at hzs
      rw [hzs.1] at hnd
      simp at hnd

/-- A chain only depends on the pointers of its own nodes. -/
theorem Linked.frame (hl : Linked next prev p h xs)
    (hsame : ∀ z ∈ xs, next' z = next z ∧ prev' z = prev z) : Linked next' prev' p h xs := by
  induction xs generalizing p h with
  | nil => exact hl
  | cons x xs ih =>
    obtain ⟨he, hp, ht⟩ := hl
    obtain ⟨hn', hp'⟩ := hsame x (List.mem_cons_self ..)
    refine ⟨he, hp'.trans hp, ?_⟩
    rw [hn']
    exact ih ht fun z hz => hsame z (List.mem_cons_of_mem _ hz)

variable [DecidableEq ι]

/-- Overwrite the value of `f` at the node `h` points to, if it points to one. -/
def setAt (f : ι → Option ι) (h v : Option ι) : ι → Option ι :=
  match h with
  | some y => Function.update f y v
  | none => f

theorem setAt_of_ne (f : ι → Option ι) {v : Option ι} (hx : h ≠ some x) : setAt f h v x = f x := by
  cases h with
  | none => rfl
  | some y => exact Function.update_of_ne (fun e => hx (by rw [e])) _ _

omit [DecidableEq ι] in
/-- A pointer at the head of a chain does not point outside of it. -/
theorem Linked.head_ne (hl : Linked next prev p h xs) (hx : x ∉ xs) : h ≠ some x := by
  rw [hl.head_eq]
  intro he
  exact hx (List.mem_of_mem_head? he)

/-- Overwriting the back pointer of the head leaves the chain a chain. -/
theorem Linked.setPrev (hl : Linked next prev p h xs) : Linked next (setAt prev h r) r h xs := by
  cases xs with
  | nil => exact hl
  | cons x xs =>
    have hnd := hl.nodup
    obtain ⟨rfl, -, ht⟩ := hl
    refine ⟨rfl, Function.update_self .., ht.frame fun z hz => ⟨rfl, ?_⟩⟩
    refine Function.update_of_ne ?_ _ _
    rintro rfl
    exact (List.nodup_cons.mp hnd).1 hz

/-- Pushing a node in front of a chain. -/
theorem Linked.push (hl : Linked next prev p h xs) (hx : x ∉ xs) :
    Linked (Function.update next x h) (setAt prev h (some x)) (prev x) (some x) (x :: xs) := by
  refine ⟨rfl, setAt_of_ne _ (hl.head_ne hx), ?_⟩
  rw [Function.update_self]
  refine hl.setPrev.frame fun z hz => ⟨Function.update_of_ne ?_ _ _, rfl⟩
  rintro rfl
  exact hx hz

/-- Unlinking the head of a chain; its successor gets the back pointer `r`. -/
theorem Linked.unlinkHead (hl : Linked next prev p h (x :: xs)) :
    Linked next (setAt prev (next x) r) r (next x) xs :=
  hl.2.2.setPrev

/-- Splicing a chain in behind a node, in place of what was there. -/
theorem Linked.splice (hl : Linked next prev p h (xs ++ y :: zs)) (hm : Linked next prev r m ys)
    (hdisj : ∀ z ∈ ys, z ∉ xs ++ [y]) :
    Linked (Function.update next y m) (setAt prev m (some y)) p h (xs ++ y :: ys) := by
  have hnd := hl.nodup
  induction xs generalizing p h with
  | nil =>
    obtain ⟨rfl, rfl, -⟩ := hl
    have hy : y ∉ ys := fun hy => hdisj y hy (by simp)
    exact hm.push hy
  | cons x xs ih =>
    obtain ⟨he, hp, ht⟩ := hl
    have hxy : x ≠ y := by
      rintro rfl
      exact (List.nodup_cons.mp hnd).1 (by simp)
    have hxys : x ∉ ys := fun hx => hdisj x hx (by simp)
    have htail := ih ht (fun z hz hmem => hdisj z hz (List.mem_cons_of_mem _ hmem))
      (List.nodup_cons.mp hnd).2
    refine ⟨he, ?_, ?_⟩
    · rw [setAt_of_ne _ (hm.head_ne hxys), hp]
    · rw [Function.update_of_ne hxy]
      exact htail

/-- Unlinking an inner node. -/
theorem Linked.unlinkInner (hl : Linked next prev p h (xs ++ y :: x :: ys)) :
    Linked (Function.update next y (next x)) (setAt prev (next x) (some y)) p h (xs ++ y :: ys) := by
  have hnd := hl.nodup
  refine hl.splice hl.behind.2.2 fun z hz hmem => ?_
  rw [show xs ++ y :: x :: ys = (xs ++ [y]) ++ x :: ys by simp] at hnd
  exact (List.nodup_append.mp hnd).2.2 z hmem z (List.mem_cons_of_mem _ hz) rfl

end LinkedList
