import RatkiniaServer.Lib.Chain
import RatkiniaServer.MemoryPool.FreeListPool
import Mathlib.Data.List.Range

/-!
# Double releases to a `FreeListPool`

The blocks that are not held form the chain from `head_`. All of them but the last have a pointer that is
not null, so `Release` notices a block that is free already unless it is the last of the chain.
-/

namespace RatkiniaServer.MemoryPool.FreeListPool

open Chains Transition

variable {Z : PoolSizes} {p p' : FreeListPool Z} {w w' : World Z} {op : Op} {node : Nat}
  {free : List Nat}

/-! ## What is claimed -/

/-- The pool has never handed out a block twice: every release of a block that was not held has aborted,
no block is held twice, the chain of the free blocks ends, and the blocks that are held can be
released. -/
structure NeverTwice (w : World Z) : Prop where
  detected : w.undetected = false
  held_nodup : w.held.Nodup
  acyclic : ∃ free, Chain w.pool.next w.pool.head free
  releasable : ∀ node ∈ w.held, (w.pool.release node).isSome

/-- The chain of the free blocks ends in `node`. -/
def LastFree (p : FreeListPool Z) (node : Nat) : Prop := ∃ free, Chain p.next p.head (free ++ [node])

/-- A block that is released without being held is not the last of the chain. -/
def SparesLast (w : World Z) : Op → Prop
  | .acquire => True
  | .release node => w.aborted = false → node ∈ w.returned → node ∉ w.held → ¬ LastFree w.pool node

/-! ## The chain of the free blocks -/

/-- The last node of a chain is the one whose pointer is null. -/
theorem lastFree_iff (hc : Chain p.next p.head free) (hmem : node ∈ free) :
    LastFree p node ↔ p.next node = none := by
  constructor
  · rintro ⟨front, hfront⟩
    exact hfront.behind.2
  · intro hnull
    obtain ⟨front, back, rfl⟩ := List.append_of_mem hmem
    have hback : Chain p.next (p.next node) back := hc.behind.2
    rw [hnull] at hback
    cases back with
    | nil => exact ⟨front, hc⟩
    | cons x back => cases hback.1

/-- The loop of `Acquire` links the blocks of a page in front of a chain outside of it. -/
theorem chain_linkPage (base k : Nat) (next : Nat → Option Nat) (nextNode : Option Nat)
    (back : List Nat) (hc : Chain next nextNode back) (hback : ∀ x ∈ back, base + k ≤ x) :
    Chain (linkPage base k next nextNode).1 (linkPage base k next nextNode).2
        (List.range' base k ++ back) ∧
      ∀ x, x < base ∨ base + k ≤ x → (linkPage base k next nextNode).1 x = next x := by
  induction k generalizing next nextNode back with
  | zero => exact ⟨hc, fun _ _ => rfl⟩
  | succ k ih =>
    have hnot : base + k ∉ back := fun hmem => by
      have := hback _ hmem
      omega
    have hpush : Chain (Function.update next (base + k) nextNode) (some (base + k))
        ((base + k) :: back) :=
      (hc.update hnot nextNode).push (Function.update_self ..)
    have hrange : List.range' base (k + 1) ++ back = List.range' base k ++ (base + k) :: back := by
      rw [← List.range'_append_1 (m := k) (n := 1), List.append_assoc]
      rfl
    rw [linkPage, hrange]
    obtain ⟨hchain, hframe⟩ := ih _ _ _ hpush (fun x hx => by
      rcases List.mem_cons.mp hx with rfl | hx
      · exact Nat.le_refl _
      · have := hback x hx
        omega)
    refine ⟨hchain, fun x hx => ?_⟩
    rw [hframe x (by omega), Function.update_of_ne (by omega)]

theorem loopCount_le (Z : PoolSizes) : Z.loopCount ≤ Z.blocksPerPage := by
  have hpos := Z.blocksPerPage_pos
  unfold PoolSizes.loopCount
  split_ifs <;> omega

/-! ## The invariant -/

/-- The free blocks are a chain; they and the blocks held are different blocks of the pages, among which
are all that have been returned. A block that is held has a null pointer. -/
structure Inv (w : World Z) (free : List Nat) : Prop where
  chain : Chain w.pool.next w.pool.head free
  nodup : (free ++ w.held).Nodup
  lt : ∀ node ∈ free ++ w.held, node < w.pool.pageCount * Z.blocksPerPage
  next_held : ∀ node ∈ w.held, w.pool.next node = none
  returned : ∀ node ∈ w.returned, node ∈ free ++ w.held

theorem inv_fresh (raw : Nat → Option Nat) : Inv (fresh Z raw) [] :=
  ⟨rfl, List.nodup_nil, by simp [fresh], by simp [fresh], by simp [fresh]⟩

theorem Inv.neverTwice (h : Inv w free) (hdetected : w.undetected = false) : NeverTwice w where
  detected := hdetected
  held_nodup := (List.nodup_append.mp h.nodup).2.1
  acyclic := ⟨free, h.chain⟩
  releasable node hnode := by
    rw [release, if_neg (fun hne => hne (h.next_held node hnode))]
    rfl

/-- The first statement of `Acquire` leaves what is known of the blocks, with more free blocks. -/
theorem Inv.ensureFree (h : Inv w free) (heq : w.pool.ensureFree = some p) :
    ∃ free', Inv { w with pool := p } free' := by
  unfold FreeListPool.ensureFree at heq
  split_ifs at heq with hnull hroom
  · obtain rfl := Option.some.inj heq
    have hempty : free = [] := h.chain.unique (hnull ▸ (rfl : Chain w.pool.next none []))
    subst hempty
    obtain ⟨hchain, hframe⟩ := chain_linkPage (w.pool.pageCount * Z.blocksPerPage) Z.loopCount
      w.pool.next none [] rfl (by simp)
    rw [List.append_nil] at hchain
    have hheld : ∀ node ∈ w.held, node < w.pool.pageCount * Z.blocksPerPage := h.lt
    have hle := loopCount_le Z
    refine ⟨_, hchain, ?_, fun node hnode => ?_, fun node hnode => ?_, fun node hnode => ?_⟩
    · refine List.nodup_append.mpr ⟨List.nodup_range', h.nodup, fun x hx y hy heq => ?_⟩
      have hlt := hheld y hy
      obtain ⟨i, -, rfl⟩ := List.mem_range'.mp hx
      omega
    · change node < (w.pool.pageCount + 1) * Z.blocksPerPage
      rw [Nat.succ_mul]
      rcases List.mem_append.mp hnode with hnode | hnode
      · obtain ⟨i, hi, rfl⟩ := List.mem_range'.mp hnode
        omega
      · have hlt := hheld node hnode
        omega
    · exact (hframe node (Or.inl (hheld node hnode))).trans (h.next_held node hnode)
    · exact List.mem_append_right _ (h.returned node hnode)
  · obtain rfl := Option.some.inj heq
    exact ⟨free, h⟩

theorem Inv.acquire (h : Inv w free) (heq : w.pool.acquire = some (p, node)) : ∃ free',
    Inv { w with pool := p, held := node :: w.held, returned := node :: w.returned } free' := by
  obtain ⟨q, hensure, heq⟩ := Option.bind_eq_some_iff.mp heq
  obtain ⟨node', hhead, heq⟩ := Option.map_eq_some_iff.mp heq
  obtain ⟨rfl, rfl⟩ := Prod.mk.inj heq
  obtain ⟨free', h'⟩ := h.ensureFree hensure
  have hchain : Chain q.next (some node') free' := hhead ▸ h'.chain
  obtain ⟨rest, rfl, htail⟩ := hchain.eq_cons
  have hnodup : (node' :: rest ++ w.held).Nodup := h'.nodup
  have hperm : (node' :: rest ++ w.held).Perm (rest ++ node' :: w.held) :=
    List.perm_middle.symm
  have hmem : ∀ x, x ∈ rest ++ node' :: w.held ↔ x ∈ node' :: rest ++ w.held := fun x =>
    hperm.mem_iff.symm
  have hnot : node' ∉ rest := fun hin => (List.nodup_cons.mp hnodup).1 (List.mem_append_left _ hin)
  refine ⟨rest, htail.update hnot none, hperm.nodup_iff.mp hnodup,
    fun x hx => h'.lt x ((hmem x).mp hx), fun x hx => ?_, fun x hx => (hmem x).mpr ?_⟩
  · by_cases hxn : x = node'
    · rw [hxn]
      exact Function.update_self ..
    · have hheld := (List.mem_cons.mp hx).resolve_left hxn
      exact (Function.update_of_ne hxn ..).trans (h'.next_held x hheld)
  · rcases List.mem_cons.mp hx with rfl | hx
    · exact List.mem_cons_self ..
    · exact h'.returned x hx

/-- The release of a block that is held. -/
theorem Inv.release_held (h : Inv w free) (hheld : node ∈ w.held)
    (heq : w.pool.release node = some p) (undetected : Bool) :
    Inv { w with pool := p, held := w.held.filter (· ≠ node), undetected := undetected }
      (node :: free) := by
  unfold FreeListPool.release at heq
  split_ifs at heq with hnull
  obtain rfl := Option.some.inj heq
  obtain ⟨hfree, hheldNodup, hdisjoint⟩ := List.nodup_append.mp h.nodup
  have hnot : node ∉ free := fun hin => hdisjoint node hin node hheld rfl
  have hsub : ∀ x ∈ node :: free ++ w.held.filter (· ≠ node), x ∈ free ++ w.held := fun x hx => by
    rcases List.mem_cons.mp hx with rfl | hx
    · exact List.mem_append_right _ hheld
    · rcases List.mem_append.mp hx with hx | hx
      · exact List.mem_append_left _ hx
      · exact List.mem_append_right _ (List.mem_filter.mp hx).1
  refine ⟨(h.chain.update hnot _).push (Function.update_self ..), ?_, fun x hx => h.lt x (hsub x hx),
    fun x hx => ?_, fun x hx => ?_⟩
  · refine List.nodup_append.mpr ⟨List.nodup_cons.mpr ⟨hnot, hfree⟩, hheldNodup.filter _, ?_⟩
    rintro x hx y hy rfl
    obtain ⟨hy, hne⟩ := List.mem_filter.mp hy
    rcases List.mem_cons.mp hx with rfl | hx
    · exact of_decide_eq_true hne rfl
    · exact hdisjoint x hx x hy rfl
  · obtain ⟨hx, hne⟩ := List.mem_filter.mp hx
    exact (Function.update_of_ne (of_decide_eq_true hne) ..).trans (h.next_held x hx)
  · by_cases hxn : x = node
    · rw [hxn]
      exact List.mem_cons_self ..
    · rcases List.mem_append.mp (h.returned x hx) with hx | hx
      · exact List.mem_cons_of_mem _ (List.mem_append_left _ hx)
      · refine List.mem_cons_of_mem _ (List.mem_append_right _ (List.mem_filter.mpr ⟨hx, ?_⟩))
        exact decide_eq_true hxn

/-- The release of a block that is not held aborts, unless the block is the last of the chain. -/
theorem Inv.release_free (h : Inv w free) (hreturned : node ∈ w.returned) (hnot : node ∉ w.held) :
    w.pool.release node = none ↔ ¬ LastFree w.pool node := by
  have hmem : node ∈ free := (List.mem_append.mp (h.returned node hreturned)).resolve_right hnot
  rw [lastFree_iff h.chain hmem, release]
  by_cases hnull : w.pool.next node = none <;> simp [hnull]

/-! ## Runs -/

theorem step_acquire_cases (hstep : step w .acquire = some w') :
    ∃ pool node, w.pool.acquire = some (pool, node) ∧
      w' = { w with pool := pool, held := node :: w.held, returned := node :: w.returned } := by
  unfold step at hstep
  split_ifs at hstep
  obtain ⟨⟨pool, node⟩, heq, rfl⟩ := Option.map_eq_some_iff.mp hstep
  exact ⟨pool, node, heq, rfl⟩

theorem step_release_cases (hstep : step w (.release node) = some w') : node ∈ w.returned ∧
    (w.pool.release node = none ∧ w' = { w with aborted := true } ∨
      ∃ pool, w.pool.release node = some pool ∧ w' = { w with
        pool := pool
        held := w.held.filter (· ≠ node)
        undetected := w.undetected || decide (node ∉ w.held) }) := by
  unfold step at hstep
  split_ifs at hstep with halive
  dsimp only at hstep
  split_ifs at hstep with hreturned
  refine ⟨hreturned, ?_⟩
  cases hrelease : w.pool.release node with
  | none =>
    rw [hrelease] at hstep
    exact Or.inl ⟨rfl, (Option.some.inj hstep).symm⟩
  | some pool =>
    rw [hrelease] at hstep
    exact Or.inr ⟨pool, rfl, (Option.some.inj hstep).symm⟩

/-- An operation after which no release of a block that was not held has gone through. -/
theorem Inv.step (h : Inv w free) (hstep : FreeListPool.step w op = some w')
    (hdetected : w'.undetected = false) : ∃ free', Inv w' free' := by
  cases op with
  | acquire =>
    obtain ⟨pool, node, heq, rfl⟩ := step_acquire_cases hstep
    exact h.acquire heq
  | release node =>
    obtain ⟨-, ⟨-, rfl⟩ | ⟨pool, heq, rfl⟩⟩ := step_release_cases hstep
    · exact ⟨free, h.chain, h.nodup, h.lt, h.next_held, h.returned⟩
    · have hheld : node ∈ w.held := by
        by_contra hnot
        simp [hnot] at hdetected
      exact ⟨_, h.release_held hheld heq _⟩

/-- It is one that spares the last block of the chain. -/
theorem Inv.detected_iff (h : Inv w free) (hdetected : w.undetected = false)
    (hstep : FreeListPool.step w op = some w') : w'.undetected = false ↔ SparesLast w op := by
  cases op with
  | acquire =>
    obtain ⟨pool, node, -, rfl⟩ := step_acquire_cases hstep
    exact iff_of_true hdetected trivial
  | release node =>
    obtain ⟨hreturned, ⟨hnone, rfl⟩ | ⟨pool, heq, rfl⟩⟩ := step_release_cases hstep
    · exact iff_of_true hdetected fun _ _ hnot => (h.release_free hreturned hnot).mp hnone
    · by_cases hheld : node ∈ w.held
      · refine iff_of_true ?_ fun _ _ hnot => absurd hheld hnot
        simp [hdetected, hheld]
      · refine iff_of_false (by simp [hheld]) fun hspares => ?_
        have halive : w.aborted = false := by
          unfold FreeListPool.step at hstep
          split_ifs at hstep with halive
          exact Bool.eq_false_iff.mpr halive
        have hnone := (h.release_free hreturned hheld).mpr (hspares halive hreturned hheld)
        rw [hnone] at heq
        cases heq

theorem sparesLast_of_disabled (hnone : step w op = none) : SparesLast w op := by
  cases op with
  | acquire => trivial
  | release node =>
    intro halive hreturned
    unfold step at hnone
    rw [if_neg (by simp [halive])] at hnone
    dsimp only at hnone
    rw [if_pos hreturned] at hnone
    split at hnone <;> cases hnone

/-- **Double releases.** In a run of `Acquire` and `Release` the pool never hands out a block twice
exactly if no release of a block that is not held is one of the last block of the chain. -/
theorem neverTwice_always_iff (Z : PoolSizes) (raw : Nat → Option Nat) (ops : List Op) :
    Always step NeverTwice (fresh Z raw) ops ↔ Meets step SparesLast (fresh Z raw) ops := by
  refine always_iff_meets (I := fun w => ∃ free, Inv w free) ?_ ?_
    (fun _ _ _ _ => sparesLast_of_disabled) ⟨[], inv_fresh raw⟩ ((inv_fresh raw).neverTwice rfl) ops
  · rintro w op w' ⟨free, h⟩ - hstep hnever
    exact h.step hstep hnever.detected
  · rintro w op w' ⟨free, h⟩ hnever hstep
    rw [← h.detected_iff hnever.detected hstep]
    refine ⟨NeverTwice.detected, fun hdetected => ?_⟩
    obtain ⟨free', h'⟩ := h.step hstep hdetected
    exact h'.neverTwice hdetected

/-- One block of 16 bytes a page. -/
def oneBlockPages : PoolSizes := ⟨16, 1, Nat.one_pos⟩

/-- The only block of the chain is released again: then its pointer leads to itself, and it is handed
out twice. -/
theorem not_neverTwice_lastReleased : ∃ w,
    run step (fresh oneBlockPages fun _ => none)
      [.acquire, .release 0, .release 0, .acquire, .acquire] = some w ∧
    w.held = [0, 0] ∧ ¬ NeverTwice w :=
  ⟨_, rfl, rfl, fun h => absurd h.held_nodup (by decide)⟩

end RatkiniaServer.MemoryPool.FreeListPool
