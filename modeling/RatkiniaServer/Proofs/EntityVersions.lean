import RatkiniaServer.Proofs.EntityManager
import RatkiniaServer.MemoryPool.Proofs.ListBounds

/-!
# Stale handles of `EntityManager`

The version counter of a slot counts, modulo 2^12, how often the slot has been issued: a freed slot
keeps it, and only issuing the slot steps it. A handle is therefore current exactly as long as its
slot has been issued a multiple of 4096 times since. None of this rests on the two lists of the
`IndexedUnmanagedList`, which stale back pointers may break.
-/

namespace RatkiniaServer

open MemoryPool MemoryPool.IndexedUnmanagedList Transition

namespace EntityManager

/-! ## The table of a manager -/

/-- The version counter of the slot `n`; the slots of the pages to come will start from zero. -/
def version (l : EntityList) (n : Nat) : UInt32 := if n < l.nodeCount then (l.mem n).data else 0

/-- The allocated flag of the slot `n`. -/
def allocated (l : EntityList) (n : Nat) : Bool := decide (n < l.nodeCount) && (l.mem n).allocated

/-- `VersionBlockInitializer` zeroes a block. -/
def ZeroInit (l : EntityList) : Prop := l.blockInitializerWhenPageAllocated = fun _ _ => 0

variable {l l' : EntityList} {m : EntityManager} {n : Nat}

theorem version_of_extends (hzero : ZeroInit l) (h : Extends l l') : version l' = version l := by
  funext k
  unfold version
  by_cases hold : k < l.nodeCount
  · rw [if_pos hold, if_pos (hold.trans_le h.count_le), Memory.data_eq_slot, h.old k hold]
    rfl
  · rw [if_neg hold]
    split_ifs with hnew
    · obtain ⟨d, hd⟩ := h.new k (Nat.not_lt.mp hold) hnew
      rw [Memory.data_eq_slot, hd, hzero]
    · rfl

theorem allocated_of_extends (h : Extends l l') : allocated l' = allocated l := by
  funext k
  unfold allocated
  by_cases hold : k < l.nodeCount
  · rw [Memory.allocated_eq_slot, h.old k hold]
    simp [hold, hold.trans_le h.count_le, Memory.slot]
  · by_cases hnew : k < l'.nodeCount
    · obtain ⟨d, hd⟩ := h.new k (Nat.not_lt.mp hold) hnew
      rw [Memory.allocated_eq_slot, hd]
      simp [hold]
    · simp [hold, hnew]

/-- A step that writes the flag and the version of one slot. -/
theorem table_update {k : EntityList} {ix v : UInt32} {b : Bool} (hcount : k.nodeCount = l.nodeCount)
    (hlt : n < l.nodeCount) (hslot : ∀ j, k.mem.slot j = if j = n then (ix, b, v) else l.mem.slot j) :
    allocated k = Function.update (allocated l) n b ∧ version k = Function.update (version l) n v := by
  refine ⟨funext fun j => ?_, funext fun j => ?_⟩
  · unfold allocated
    rw [hcount, Memory.allocated_eq_slot, hslot]
    by_cases hj : j = n
    · rw [hj, Function.update_self, if_pos rfl]
      simp [hlt]
    · rw [Function.update_of_ne hj, if_neg hj]
      rfl
  · unfold version
    rw [hcount, Memory.data_eq_slot, hslot]
    by_cases hj : j = n
    · rw [hj, Function.update_self, if_pos hlt, if_pos rfl]
    · rw [Function.update_of_ne hj, if_neg hj]
      rfl

/-- Stepping the version of a slot whose flag has just been set. -/
theorem table_setData {l₀ : EntityList} {v : UInt32} (hlt : n < l.nodeCount)
    (hflag : allocated l = Function.update (allocated l₀) n true) (hversion : version l = version l₀) :
    allocated (l.setData n v) = Function.update (allocated l₀) n true ∧
      version (l.setData n v) = Function.update (version l₀) n v := by
  have hflagn : (l.mem n).allocated = true := by
    have hn := congrFun hflag n
    rw [Function.update_self, allocated, Bool.and_eq_true] at hn
    exact hn.2
  obtain ⟨hflag', hversion'⟩ := table_update (l := l) (k := l.setData n v) rfl hlt
    fun k => Memory.slot_setData l.mem n k v
  refine ⟨?_, by rw [hversion', hversion]⟩
  rw [hflag', hflagn, hflag, Function.update_idem]

theorem data_eq_version (hlt : n < l.nodeCount) : (l.mem n).data = version l n := by
  rw [version, if_pos hlt]

/-- `Get` reads the table. -/
theorem get_eq_table (m : EntityManager) (entityId : UInt32) : m.get entityId =
    if allocated m.list entityId.toNat then
      Entity.ofIdVersion entityId (version m.list entityId.toNat)
    else Entity.nullEntity := by
  rw [EntityManager.get, IndexedUnmanagedList.get_eq, allocated]
  by_cases hlt : entityId.toNat < m.list.nodeCount
  · by_cases hflag : (m.list.mem entityId.toNat).allocated
    · simp [hlt, hflag, data_eq_version]
    · simp [hflag]
  · simp [hlt]

/-- `Create` issues the next free slot, whatever state its flag is in. -/
theorem create_table (hb : Bounded m.list) (hzero : ZeroInit m.list) :
    ∃ m' l', m.list.create = some (l', UInt32.ofNat m.list.nextFree, m.list.nextFree) ∧
      m.create = some (m', Entity.ofIdVersion (UInt32.ofNat m.list.nextFree)
        (getIncrementVersion (version m.list m.list.nextFree))) ∧
      Bounded m'.list ∧ ZeroInit m'.list ∧
      m'.list.nodeCount ≤ max m.list.nodeCount (m.list.nextFree + entityLayout.nodesPerPage) ∧
      allocated m'.list = Function.update (allocated m.list) m.list.nextFree true ∧
      version m'.list = Function.update (version m.list) m.list.nextFree
        (getIncrementVersion (version m.list m.list.nextFree)) := by
  obtain ⟨-, hext, -, hgrow⟩ := hb.ensureFree nodesPerPage_le
  obtain ⟨l', heq, hb', hinit, hcount, hlt, hslot⟩ := hb.create nodesPerPage_le
  set n := m.list.nextFree
  obtain ⟨hflag, hversion⟩ := table_update hcount hlt hslot
  rw [allocated_of_extends hext] at hflag
  rw [data_eq_version hlt, Function.update_eq_self, version_of_extends hzero hext] at hversion
  have hlt' : n < l'.nodeCount := by rwa [hcount]
  have hdata : (l'.mem n).data = version m.list n := by rw [data_eq_version hlt', hversion]
  refine ⟨⟨l'.setData n (getIncrementVersion (version m.list n))⟩, l', heq, ?_, hb'.setData ..,
    hinit.trans hzero, ?_, table_setData hlt' hflag hversion⟩
  · simp [EntityManager.create, heq, hdata]
  · exact hcount.trans_le hgrow

/-- `CreateWithSpecificId` refuses `NullId` and an allocated slot, and issues any other slot. -/
theorem createWithSpecificId_table (hb : Bounded m.list) (hzero : ZeroInit m.list) (id : UInt32) :
    ∃ m' e, m.createWithSpecificId id = some (m', e) ∧
      if id = Entity.nullId ∨ allocated m.list id.toNat then m' = m ∧ e = Entity.nullEntity
      else e = Entity.ofIdVersion id (getIncrementVersion (version m.list id.toNat)) ∧
        Bounded m'.list ∧ ZeroInit m'.list ∧
        m'.list.nodeCount ≤ max m.list.nodeCount (id.toNat + entityLayout.nodesPerPage) ∧
        allocated m'.list = Function.update (allocated m.list) id.toNat true ∧
        version m'.list = Function.update (version m.list) id.toNat
          (getIncrementVersion (version m.list id.toNat)) := by
  by_cases hnull : id = Entity.nullId
  · exact ⟨m, Entity.nullEntity, by rw [createWithSpecificId, if_pos hnull], by simp [hnull]⟩
  obtain ⟨k, hk⟩ : ∃ k, k = id.toNat / entityLayout.nodesPerPage + 1 - m.list.pageCount := ⟨_, rfl⟩
  obtain ⟨l, hpages, hcount, hext⟩ := prependPages_extends nodesPerPage_le k m.list
  have hlt : id.toNat < l.nodeCount := by
    rw [lt_nodeCount_iff]
    omega
  have hcreateAt : m.list.createAt id = some (if (l.mem id.toNat).allocated then (l, none)
      else (l.allocateNode id.toNat, some id.toNat)) := by
    rw [createAt, ← hk, hpages, position_eq]
    rfl
  have hflag : (l.mem id.toNat).allocated = allocated m.list id.toNat := by
    rw [← allocated_of_extends hext, allocated]
    simp [hlt]
  by_cases halloc : allocated m.list id.toNat
  · -- The slot is in the pages already, so none is added.
    have hold : id.toNat < m.list.nodeCount := by
      rw [allocated, Bool.and_eq_true, decide_eq_true_eq] at halloc
      exact halloc.1
    have hk0 : k = 0 := by
      have := (lt_nodeCount_iff id).mp hold
      omega
    rw [hk0] at hpages
    obtain rfl : m.list = l := Option.some.inj hpages
    refine ⟨m, Entity.nullEntity, ?_, by simp [halloc]⟩
    rw [createWithSpecificId, if_neg hnull, hcreateAt, hflag, if_pos halloc]
    rfl
  · set l' := l.allocateNode id.toNat with hl'
    obtain ⟨hflag', hversion'⟩ := table_update (l := l) (k := l') rfl hlt
      (slot_move l.mem l.freeHead l.allocatedHead id.toNat true)
    rw [allocated_of_extends hext] at hflag'
    rw [data_eq_version hlt, Function.update_eq_self, version_of_extends hzero hext] at hversion'
    have hlt' : id.toNat < l'.nodeCount := hlt
    have hdata : (l'.mem id.toNat).data = version m.list id.toNat := by
      rw [data_eq_version hlt', hversion']
    set v := getIncrementVersion (version m.list id.toNat) with hv
    refine ⟨⟨l'.setData id.toNat v⟩, Entity.ofIdVersion id v, ?_, ?_⟩
    · rw [createWithSpecificId, if_neg hnull, hcreateAt, hflag, if_neg halloc]
      simp only [Option.map_some, hdata, hv]
    · rw [if_neg (by simp [hnull, halloc])]
      refine ⟨rfl, ((hb.prependPages nodesPerPage_le hpages).allocateNode hlt).setData .., ?_, ?_,
        table_setData hlt' hflag' hversion'⟩
      · exact hext.init_eq.trans hzero
      · change l.nodeCount ≤ _
        rcases Nat.eq_zero_or_pos k with hk0 | hkpos
        · rw [nodeCount, hcount, hk0]
          exact le_max_left ..
        · have hcover : l.nodeCount =
              (id.toNat / entityLayout.nodesPerPage + 1) * entityLayout.nodesPerPage := by
            rw [nodeCount, hcount]
            congr 1
            omega
          rw [hcover, Nat.add_mul, Nat.one_mul]
          refine le_max_of_le_right (Nat.add_le_add_right ?_ _)
          exact Nat.div_mul_le_self ..

/-- `Destroy` clears the flag of the slot, if the slot has the version of the handle. -/
theorem destroy_table (m : EntityManager) (e : Entity) :
    if allocated m.list e.getId.toNat ∧ version m.list e.getId.toNat = e.getVersion then
      m.destroy e = ⟨m.list.erase e.getId⟩ ∧
        allocated (m.destroy e).list = Function.update (allocated m.list) e.getId.toNat false ∧
        version (m.destroy e).list = version m.list
    else m.destroy e = m := by
  have hget := IndexedUnmanagedList.get_eq (l := m.list) e.getId
  set n := e.getId.toNat with hn
  by_cases hlive : n < m.list.nodeCount ∧ (m.list.mem n).allocated
  · rw [if_pos hlive] at hget
    have halloc : allocated m.list n = true := by simp [allocated, hlive]
    have hdestroy : m.destroy e =
        if (m.list.mem n).data ≠ e.getVersion then m else ⟨m.list.erase e.getId⟩ := by
      rw [destroy, hget]
    rw [data_eq_version hlive.1] at hdestroy
    split_ifs with hcond
    · have herase : m.list.erase e.getId = m.list.freeNode n := by
        have hpage := (lt_nodeCount_iff e.getId).mp hlive.1
        rw [erase, if_neg (by omega), position_eq, ← hn, if_neg (by simp [hlive.2])]
      rw [hdestroy, if_neg (not_not.mpr hcond.2)]
      refine ⟨rfl, ?_⟩
      rw [herase]
      obtain ⟨hflag, hversion⟩ := table_update (l := m.list) (k := m.list.freeNode n) rfl hlive.1
        (slot_move m.list.mem m.list.allocatedHead m.list.freeHead n false)
      refine ⟨hflag, ?_⟩
      rw [hversion, data_eq_version hlive.1, Function.update_eq_self]
    · rw [hdestroy, if_pos fun hv => hcond ⟨halloc, hv⟩]
  · rw [if_neg hlive] at hget
    have halloc : allocated m.list n = false := by
      simp only [allocated, Bool.and_eq_false_iff, decide_eq_false_iff_not]
      by_cases hlt : n < m.list.nodeCount
      · exact Or.inr (by simpa [hlt] using hlive)
      · exact Or.inl hlt
    rw [if_neg (by simp [halloc]), destroy, hget]

/-! ## The history -/

/-- Every slot index that was issued is below `2^20 - 1`. -/
def Fits (s : History) : Prop := ∀ p ∈ s.issued, p.1.toNat < 2 ^ 20 - 1

/-- Version counters count issues, and every handle carries the count of its slot at the time it was
issued. -/
structure Counted (s : History) : Prop where
  /-- The pages reach at most one page beyond the ids. -/
  count_le : s.manager.list.nodeCount ≤ 2 ^ 20 + entityLayout.nodesPerPage
  /-- The version counter of every slot. -/
  version_eq : ∀ i : UInt32, (version s.manager.list i.toNat).toNat = issues s.issued i % 2 ^ 12
  /-- The handle that was issued after `earlier`. -/
  issued_eq : ∀ later i e earlier, s.issued = later ++ (i, e) :: earlier →
    ∃ v, e = Entity.ofIdVersion i v ∧ v.toNat = (issues earlier i + 1) % 2 ^ 12

/-- **The invariant.** -/
structure Sound (s : History) : Prop where
  bounded : Bounded s.manager.list
  zero : ZeroInit s.manager.list
  counted : Fits s → Counted s

/-- `s'` comes after `s`: slots have been issued, and a slot has become allocated only by that. -/
def Follows (s s' : History) : Prop := ∃ more, s'.issued = more ++ s.issued ∧
  (Fits s' → ∀ i : UInt32, allocated s'.manager.list i.toNat →
    allocated s.manager.list i.toNat ∨ issues more i ≠ 0)

variable {s s' t : History} {i : UInt32} {e : Entity} {later earlier : List (UInt32 × Entity)}

theorem issues_cons (i j : UInt32) (e : Entity) (issued : List (UInt32 × Entity)) :
    issues ((i, e) :: issued) j = issues issued j + if i = j then 1 else 0 := by
  simp [issues, List.countP_cons]

theorem issues_append (xs ys : List (UInt32 × Entity)) (i : UInt32) :
    issues (xs ++ ys) i = issues xs i + issues ys i := List.countP_append ..

theorem issues_eq_zero (hfits : Fits s) (hi : 2 ^ 20 - 1 ≤ i.toNat) : issues s.issued i = 0 := by
  refine List.countP_eq_zero.mpr fun p hp heq => ?_
  have hlt := hfits p hp
  rw [of_decide_eq_true heq] at hlt
  omega

theorem toNat_getIncrementVersion (v : UInt32) :
    (getIncrementVersion v).toNat = (v.toNat + 1) % 2 ^ 12 := by
  have hmask : (getIncrementVersion v).toNat = (v + 1).toNat % 2 ^ 12 := by
    rw [← Nat.and_two_pow_sub_one_eq_mod, getIncrementVersion, UInt32.toNat_and]
    rfl
  rw [hmask, UInt32.toNat_add]
  change (v.toNat + 1) % 2 ^ 32 % 2 ^ 12 = _
  omega

/-- A handle of a slot below the last one is not the null handle, and neither is a first handle. -/
theorem ofIdVersion_ne_null {v : UInt32} (h : i.toNat < 2 ^ 20 - 1 ∨ v.toNat = 1) :
    Entity.ofIdVersion i v ≠ Entity.nullEntity := by
  intro heq
  have hdata := Entity.toNat_ofIdVersion i v
  rw [heq, show Entity.nullEntity.data.toNat = 2 ^ 32 - 1 by decide] at hdata
  omega

theorem Fits.of_append {l : List (UInt32 × Entity)} (h : Fits s')
    (hissued : s'.issued = l ++ s.issued) : Fits s := fun p hp =>
  h p (hissued ▸ List.mem_append_right _ hp)

theorem Follows.refl (s : History) : Follows s s := ⟨[], rfl, fun _ _ => Or.inl⟩

theorem Follows.trans (h : Follows s s') (h' : Follows s' t) : Follows s t := by
  obtain ⟨xs, hxs, hflag⟩ := h
  obtain ⟨ys, hys, hflag'⟩ := h'
  refine ⟨ys ++ xs, by rw [hys, hxs, List.append_assoc], fun hfits i hi => ?_⟩
  rw [issues_append]
  rcases hflag' hfits i hi with hi' | hne
  · rcases hflag (hfits.of_append hys) i hi' with hi'' | hne
    · exact Or.inl hi''
    · exact Or.inr (by omega)
  · exact Or.inr (by omega)

theorem sound_fresh (raw : Memory UInt32) : Sound ⟨fresh raw, []⟩ where
  bounded := bounded_empty _ raw
  zero := rfl
  counted _ := by
    have hcount : (fresh raw).list.nodeCount = 0 := Nat.zero_mul _
    refine ⟨by rw [hcount]; exact Nat.zero_le _, fun i => ?_, fun later i e earlier h => ?_⟩
    · rw [version, hcount, if_neg (Nat.not_lt_zero _)]
      rfl
    · simp at h

/-- Issuing a slot. -/
theorem Counted.issue (h : Counted s) {m' : EntityManager}
    (hcount : m'.list.nodeCount ≤ 2 ^ 20 + entityLayout.nodesPerPage)
    (hversion : version m'.list = Function.update (version s.manager.list) i.toNat
      (getIncrementVersion (version s.manager.list i.toNat)))
    (he : e = Entity.ofIdVersion i (getIncrementVersion (version s.manager.list i.toNat))) :
    Counted ⟨m', (i, e) :: s.issued⟩ where
  count_le := hcount
  version_eq j := by
    rw [hversion, issues_cons]
    by_cases hij : i = j
    · rw [hij, Function.update_self, toNat_getIncrementVersion, h.version_eq, if_pos rfl,
        Nat.mod_add_mod]
    · have hne : j.toNat ≠ i.toNat := fun hnat => hij (UInt32.toNat_inj.mp hnat).symm
      rw [Function.update_of_ne hne, h.version_eq, if_neg hij, Nat.add_zero]
  issued_eq later j f earlier hsplit := by
    rcases List.cons_eq_append_iff.mp hsplit with ⟨rfl, hcons⟩ | ⟨later', rfl, hrest⟩
    · obtain ⟨hpair, rfl⟩ := List.cons.inj hcons
      obtain ⟨rfl, rfl⟩ := Prod.mk.inj hpair
      exact ⟨_, he, by rw [toNat_getIncrementVersion, h.version_eq, Nat.mod_add_mod]⟩
    · exact h.issued_eq later' j f earlier hrest

/-- The slot that was issued is the only one that can have become allocated. -/
theorem follows_issue {m' : EntityManager}
    (hflag : allocated m'.list = Function.update (allocated s.manager.list) i.toNat true)
    (e : Entity) : Follows s ⟨m', (i, e) :: s.issued⟩ := by
  refine ⟨[(i, e)], rfl, fun _ j hj => ?_⟩
  by_cases hij : i = j
  · right
    rw [hij]
    simp [issues]
  · left
    have hne : j.toNat ≠ i.toNat := fun hnat => hij (UInt32.toNat_inj.mp hnat).symm
    rwa [hflag, Function.update_of_ne hne] at hj

theorem Sound.nextFree_le (h : Sound s) :
    s.manager.list.nextFree ≤ s.manager.list.nodeCount := by
  unfold nextFree
  cases hhead : s.manager.list.freeHead with
  | none => exact le_rfl
  | some n => exact (h.bounded.freeHead n hhead).le

/-- `Create` issues the slot `nextFree`. -/
theorem Sound.create (h : Sound s) : ∃ s', s.step .create = some s' ∧ Sound s' ∧ Follows s s' := by
  obtain ⟨m', l', hlist, hcreate, hb, hzero, hgrow, hflag, hversion⟩ :=
    create_table h.bounded h.zero
  set n := s.manager.list.nextFree with hn
  obtain ⟨e, he⟩ : ∃ e, e = Entity.ofIdVersion (UInt32.ofNat n)
    (getIncrementVersion (version s.manager.list n)) := ⟨_, rfl⟩
  rw [← he] at hcreate
  set s' : History := ⟨m', (UInt32.ofNat n, e) :: s.issued⟩ with hs'
  have hissued : s'.issued = [(UInt32.ofNat n, e)] ++ s.issued := rfl
  have hstep : s.step .create = some s' := by
    rw [History.step, hcreate, Option.bind_some, hlist]
    rfl
  -- The index is the position of the node, since the pages are small enough.
  have hsmall : Fits s' → (UInt32.ofNat n).toNat = n ∧ n < 2 ^ 20 ∧ Counted s := fun hfits => by
    have hcounted := h.counted (hfits.of_append hissued)
    have hle := h.nextFree_le
    have hcount := hcounted.count_le
    have hN : entityLayout.nodesPerPage = 655 := by decide
    have hnat : (UInt32.ofNat n).toNat = n := toNat_ofNat (by omega)
    have hlt := hfits (UInt32.ofNat n, e) (List.mem_cons_self ..)
    simp only [hnat] at hlt
    exact ⟨hnat, by omega, hcounted⟩
  refine ⟨s', hstep, ⟨hb, hzero, fun hfits => ?_⟩, ?_⟩
  · obtain ⟨hnat, hlt, hcounted⟩ := hsmall hfits
    refine hcounted.issue (hgrow.trans (max_le hcounted.count_le (by omega))) ?_ ?_
    · rw [hnat]
      exact hversion
    · rw [hnat, he]
  · refine ⟨_, hissued, fun hfits => ?_⟩
    obtain ⟨hnat, -⟩ := hsmall hfits
    obtain ⟨more, hmore, hnew⟩ := follows_issue (i := UInt32.ofNat n) (by rw [hnat]; exact hflag) e
    rw [List.append_cancel_right (hissued.symm.trans hmore)]
    exact hnew hfits

/-- `CreateWithSpecificId` issues the slot it is given, or none. -/
theorem Sound.createWithSpecificId (h : Sound s) (id : UInt32) :
    ∃ s', s.step (.createWithSpecificId id) = some s' ∧ Sound s' ∧ Follows s s' := by
  obtain ⟨m', e, hcreate, hcases⟩ := createWithSpecificId_table h.bounded h.zero id
  have hstep : s.step (.createWithSpecificId id) =
      some ⟨m', if e = Entity.nullEntity then s.issued else (id, e) :: s.issued⟩ := by
    rw [History.step, hcreate]
    rfl
  rw [hstep]
  split_ifs at hcases with hrefused
  · obtain ⟨rfl, rfl⟩ := hcases
    exact ⟨s, rfl, h, Follows.refl s⟩
  obtain ⟨rfl, hb, hzero, hgrow, hflag, hversion⟩ := hcases
  split_ifs with hnull
  · -- An id that does not fit is issued for the first time, so its handle is not null either.
    have hover : ¬ Fits s := fun hfits => by
      refine ofIdVersion_ne_null ?_ hnull
      rcases Nat.lt_or_ge id.toNat (2 ^ 20 - 1) with hlt | hge
      · exact Or.inl hlt
      · right
        rw [toNat_getIncrementVersion, (h.counted hfits).version_eq, issues_eq_zero hfits hge]
        rfl
    exact ⟨_, rfl, ⟨hb, hzero, fun hfits => absurd hfits hover⟩, [], rfl,
      fun hfits => absurd hfits hover⟩
  · refine ⟨_, rfl, ⟨hb, hzero, fun hfits => ?_⟩, follows_issue hflag _⟩
    have hcounted := h.counted (hfits.of_append (l := [(id, _)]) rfl)
    have hlt := hfits (id, _) (List.mem_cons_self ..)
    simp only at hlt
    exact hcounted.issue (hgrow.trans (max_le hcounted.count_le (by omega))) hversion rfl

theorem erase_pages (l : EntityList) (index : UInt32) :
    (l.erase index).nodeCount = l.nodeCount ∧ (ZeroInit l → ZeroInit (l.erase index)) := by
  simp only [erase]
  split_ifs <;> exact ⟨rfl, id⟩

/-- `Destroy` issues nothing. -/
theorem Sound.destroy (h : Sound s) (e : Entity) :
    Sound ⟨s.manager.destroy e, s.issued⟩ ∧ Follows s ⟨s.manager.destroy e, s.issued⟩ := by
  have htable := destroy_table s.manager e
  split_ifs at htable with hcond
  · obtain ⟨hdestroy, hflag, hversion⟩ := htable
    obtain ⟨hcount, hzero⟩ := erase_pages s.manager.list e.getId
    refine ⟨?_, [], rfl, fun _ i hi => Or.inl ?_⟩
    · rw [hdestroy] at hversion ⊢
      refine ⟨h.bounded.erase _, hzero h.zero, fun hfits => ?_⟩
      have hcounted := h.counted hfits
      refine ⟨hcount.trans_le hcounted.count_le, fun i => ?_, hcounted.issued_eq⟩
      rw [hversion]
      exact hcounted.version_eq i
    · simp only [hflag] at hi
      by_cases hie : i.toNat = e.getId.toNat
      · rw [hie, Function.update_self] at hi
        cases hi
      · rwa [Function.update_of_ne hie] at hi
  · rw [htable]
    exact ⟨h, Follows.refl s⟩

/-- One operation. -/
theorem Sound.step (h : Sound s) (op : Op) :
    ∃ s', s.step op = some s' ∧ Sound s' ∧ Follows s s' := by
  cases op with
  | create => exact h.create
  | createWithSpecificId id => exact h.createWithSpecificId id
  | destroy e => exact ⟨_, rfl, h.destroy e⟩

/-- A run of operations. -/
theorem Sound.run (h : Sound s) (ops : List Op) :
    ∃ t, run History.step s ops = some t ∧ Sound t ∧ Follows s t := by
  refine run_total' (P := fun t => Sound t ∧ Follows s t) (fun t op ht => ?_) ⟨h, Follows.refl s⟩ ops
  obtain ⟨t', hstep, hsound, hfollows⟩ := ht.1.step op
  exact ⟨t', hstep, hsound, ht.2.trans hfollows⟩

/-! ## Recognising a handle -/

/-- A handle for the slot `i` is current: the slot is allocated and has been issued a multiple of 4096
times since, according to `later`. -/
def Current (s : History) (later : List (UInt32 × Entity)) (i : UInt32) : Prop :=
  allocated s.manager.list i.toNat ∧ 4096 ∣ issues later i

/-- The version of the slot of a handle agrees with the handle after every 4096 issues. -/
theorem Counted.version_eq_iff (h : Counted s) (hsplit : s.issued = later ++ (i, e) :: earlier)
    (hi : i.toNat < 2 ^ 20 - 1) : e.getId = i ∧ e = Entity.ofIdVersion i e.getVersion ∧
      (version s.manager.list i.toNat = e.getVersion ↔ 4096 ∣ issues later i) := by
  obtain ⟨v, he, hv⟩ := h.issued_eq later i e earlier hsplit
  have hvlt : v.toNat < 2 ^ 12 := by
    rw [hv]
    exact Nat.mod_lt _ (by decide)
  have hid : e.getId = i := by
    rw [he]
    exact Entity.getId_ofIdVersion v (by omega)
  have hversion : e.getVersion = v := by
    rw [he]
    exact Entity.getVersion_ofIdVersion i hvlt
  refine ⟨hid, by rw [hversion, he], ?_⟩
  have htotal : issues s.issued i = issues later i + (issues earlier i + 1) := by
    rw [hsplit, issues_append, issues_cons, if_pos rfl]
  rw [hversion, ← UInt32.toNat_inj, h.version_eq, hv, htotal]
  omega

/-- `Get` and `Destroy` accept a handle exactly while it is current. -/
theorem Counted.accepts_iff (h : Counted s) (hsplit : s.issued = later ++ (i, e) :: earlier)
    (hi : i.toNat < 2 ^ 20 - 1) : (s.manager.get i = e ↔ Current s later i) ∧
      (Current s later i →
        allocated (s.manager.destroy e).list =
            Function.update (allocated s.manager.list) i.toNat false ∧
          version (s.manager.destroy e).list = version s.manager.list) ∧
      (¬ Current s later i → s.manager.destroy e = s.manager) := by
  obtain ⟨hid, he, hiff⟩ := h.version_eq_iff hsplit hi
  have hget : s.manager.get i = e ↔ Current s later i := by
    rw [get_eq_table, Current, ← hiff]
    split_ifs with halloc
    · rw [and_iff_right halloc]
      constructor
      · intro heq
        have hlt : (version s.manager.list i.toNat).toNat < 2 ^ 12 := by
          rw [h.version_eq]
          exact Nat.mod_lt _ (by decide)
        rw [← heq, Entity.getVersion_ofIdVersion i hlt]
      · intro heq
        rw [heq]
        exact he.symm
    · refine iff_of_false (fun heq => ?_) fun hcur => halloc hcur.1
      rw [he] at heq
      exact ofIdVersion_ne_null (Or.inl hi) heq.symm
  have hdestroy := destroy_table s.manager e
  rw [hid] at hdestroy
  refine ⟨hget, ?_⟩
  rw [Current, ← hiff]
  refine ⟨fun hcur => ?_, fun hcur => ?_⟩
  · rw [if_pos hcur] at hdestroy
    exact hdestroy.2
  · rwa [if_neg hcur] at hdestroy

/-- **Stale handles are recognised exactly.** Every run goes through. Where all indices it issued fit,
`Get` returns a handle and `Destroy` takes it exactly while it is current; `Destroy` touches neither
another flag nor a version. After that the slot may be issued another 4095 times before the handle
could be taken for a current one again. -/
theorem stale_handles_recognised (raw : Memory UInt32) (ops : List Op) :
    ∃ s, run History.step ⟨fresh raw, []⟩ ops = some s ∧ (Fits s → ∀ later i e earlier,
      s.issued = later ++ (i, e) :: earlier →
      (s.manager.get i = e ↔ Current s later i) ∧
      (Current s later i →
        allocated (s.manager.destroy e).list =
            Function.update (allocated s.manager.list) i.toNat false ∧
          version (s.manager.destroy e).list = version s.manager.list) ∧
      (¬ Current s later i → s.manager.destroy e = s.manager) ∧
      (Current s later i → ∀ ops', ∃ t more,
        run History.step s (.destroy e :: ops') = some t ∧ t.issued = more ++ s.issued ∧
        (Fits t → issues more i ≤ 4095 → t.manager.get i ≠ e ∧ t.manager.destroy e = t.manager))) := by
  obtain ⟨s, hrun, hsound, -⟩ := (sound_fresh raw).run ops
  refine ⟨s, hrun, fun hfits later i e earlier hsplit => ?_⟩
  have hi : i.toNat < 2 ^ 20 - 1 := hfits (i, e) (by rw [hsplit]; simp)
  obtain ⟨hget, hcurrent, hstale⟩ := (hsound.counted hfits).accepts_iff hsplit hi
  refine ⟨hget, hcurrent, hstale, fun hcur ops' => ?_⟩
  obtain ⟨t, hrun', hsound', more, hmore, hflag⟩ := (hsound.destroy e).1.run ops'
  refine ⟨t, more, run_cons_eq_some.mpr ⟨_, rfl, hrun'⟩, hmore, fun hfits' hle => ?_⟩
  have hsplit' : t.issued = (more ++ later) ++ (i, e) :: earlier := by
    rw [hmore, hsplit, List.append_assoc]
  obtain ⟨hget', -, hstale'⟩ := (hsound'.counted hfits').accepts_iff hsplit' hi
  -- With no further issue the slot is still free; with fewer than 4096 the count is off.
  have hnot : ¬ Current t (more ++ later) i := fun ⟨halloc, hdvd⟩ => by
    rw [issues_append] at hdvd
    have hzero : issues more i = 0 := by
      have := hcur.2
      omega
    rcases hflag hfits' i halloc with hold | hne
    · simp only [(hcurrent hcur).1, Function.update_self] at hold
      cases hold
    · exact hne hzero
  exact ⟨fun heq => hnot (hget'.mp heq), hstale' hnot⟩

end EntityManager

end RatkiniaServer
