import RatkiniaServer.EntityManager
import RatkiniaServer.MemoryPool.Proofs.ListSoundness

/-!
# The handles of `EntityManager`

An `EntityManager` keeps its handles apart as long as slot indices fit the 20 bits an `Entity` has
for them and no operation unlinks the head of a slot list while that head carries a stale back
pointer.
-/

namespace RatkiniaServer

open MemoryPool MemoryPool.IndexedUnmanagedList Transition

namespace Entity

theorem toNat_ofIdVersion (id version : UInt32) : (ofIdVersion id version).data.toNat =
    version.toNat % 2 ^ 12 * 2 ^ 20 + id.toNat % 2 ^ 20 := by
  have hmask : id.toNat &&& (2 ^ 20 - 1) = id.toNat % 2 ^ 20 := Nat.and_two_pow_sub_one_eq_mod ..
  have hshift : version.toNat <<< 20 % 2 ^ 32 = (version.toNat % 2 ^ 12) <<< 20 := by
    rw [Nat.shiftLeft_eq, Nat.shiftLeft_eq]
    omega
  have hlt : id.toNat % 2 ^ 20 < 2 ^ 20 := Nat.mod_lt _ (by decide)
  have hdata : (ofIdVersion id version).data.toNat =
      version.toNat <<< 20 % 2 ^ 32 ||| id.toNat &&& (2 ^ 20 - 1) := by
    simp only [ofIdVersion, UInt32.toNat_or, UInt32.toNat_and, UInt32.toNat_shiftLeft]
    rfl
  rw [hdata, hshift, hmask, ← Nat.shiftLeft_add_eq_or_of_lt hlt, Nat.shiftLeft_eq]

theorem toNat_getId (e : Entity) : e.getId.toNat = e.data.toNat % 2 ^ 20 := by
  have hmask : e.data.toNat &&& (2 ^ 20 - 1) = e.data.toNat % 2 ^ 20 :=
    Nat.and_two_pow_sub_one_eq_mod ..
  rw [← hmask, getId, UInt32.toNat_and]
  rfl

theorem toNat_getVersion (e : Entity) : e.getVersion.toNat = e.data.toNat / 2 ^ 20 := by
  rw [getVersion, UInt32.toNat_shiftRight, ← Nat.shiftRight_eq_div_pow]
  rfl

/-- The id of a handle, if it fits. -/
theorem getId_ofIdVersion {id : UInt32} (version : UInt32) (hid : id.toNat < 2 ^ 20) :
    (ofIdVersion id version).getId = id := by
  apply UInt32.toNat_inj.mp
  rw [toNat_getId, toNat_ofIdVersion]
  omega

/-- The version of a handle, if it fits. -/
theorem getVersion_ofIdVersion (id : UInt32) {version : UInt32} (hv : version.toNat < 2 ^ 12) :
    (ofIdVersion id version).getVersion = version := by
  apply UInt32.toNat_inj.mp
  rw [toNat_getVersion, toNat_ofIdVersion]
  omega

/-- A handle is rebuilt from its id and version. -/
theorem ofIdVersion_getId_getVersion (e : Entity) : ofIdVersion e.getId e.getVersion = e := by
  have hlt := UInt32.toNat_lt e.data
  have hdata : (ofIdVersion e.getId e.getVersion).data = e.data := by
    apply UInt32.toNat_inj.mp
    rw [toNat_ofIdVersion, toNat_getId, toNat_getVersion]
    omega
  exact congrArg Entity.mk hdata

theorem ext_of_getId_of_getVersion {e e' : Entity} (hid : e.getId = e'.getId)
    (hversion : e.getVersion = e'.getVersion) : e = e' := by
  rw [← ofIdVersion_getId_getVersion e, hid, hversion, ofIdVersion_getId_getVersion]

/-- Only the last id with the last version gives the null handle. -/
theorem ofIdVersion_eq_null_iff {id version : UInt32} (hid : id.toNat < 2 ^ 20)
    (hv : version.toNat < 2 ^ 12) :
    ofIdVersion id version = nullEntity ↔ id = nullId ∧ version.toNat = 2 ^ 12 - 1 := by
  have hdata := toNat_ofIdVersion id version
  have hnull : nullId.toNat = 2 ^ 20 - 1 := by decide
  constructor
  · intro h
    rw [h, show nullEntity.data.toNat = 2 ^ 32 - 1 by decide] at hdata
    refine ⟨UInt32.toNat_inj.mp ?_, ?_⟩ <;> omega
  · rintro ⟨rfl, hver⟩
    have hdata' : (ofIdVersion nullId version).data = 0xFFFFFFFF := by
      apply UInt32.toNat_inj.mp
      rw [hdata, hnull, hver]
      decide
    exact congrArg Entity.mk hdata'

end Entity

namespace EntityManager

/-- The list of a manager. -/
abbrev EntityList := IndexedUnmanagedList entityLayout UInt32

/-- The handle that the node at position `n` stands for. -/
def handle (l : EntityList) (n : Nat) : Entity := Entity.ofIdVersion (UInt32.ofNat n) (l.mem n).data

/-- What the callers may expect of the handles they hold. -/
structure Unambiguous (w : World) : Prop where
  /-- Live handles have different ids. -/
  ids_nodup : (w.live.map Entity.getId).Nodup
  /-- The null handle is never live. -/
  not_null : Entity.nullEntity ∉ w.live
  /-- Looking up the id of a live handle returns the handle. -/
  get_eq : ∀ e ∈ w.live, w.manager.get e.getId = e
  /-- Iterating yields exactly the live handles, each once. -/
  iterate_eq : ∃ fuel es, w.manager.iterate fuel = some es ∧ es.Perm w.live

/-- The condition on a step. `Create` takes a slot with a 20-bit index, and not the one whose handle
would be the null handle; `CreateWithSpecificId` gets a 20-bit id; and neither it nor `Destroy`
unlinks a list head with a stale back pointer. -/
def Safe (w : World) : Op → Prop
  | .create => w.manager.list.nextFree < 2 ^ 20 ∧ (w.manager.list.nextFree = 2 ^ 20 - 1 →
      getIncrementVersion (w.manager.list.ensureFree.mem (2 ^ 20 - 1)).data ≠ 2 ^ 12 - 1)
  | .createWithSpecificId entityId => entityId = Entity.nullId ∨
      (w.manager.list.get entityId).isSome ∨
      entityId.toNat < 2 ^ 20 ∧ (w.manager.list.freeHead = some entityId.toNat →
        (w.manager.list.mem entityId.toNat).prev = none)
  | .destroy e => ∀ n, w.manager.list.get e.getId = some n →
      (w.manager.list.mem n).data = e.getVersion → w.manager.list.allocatedHead = some n →
      (w.manager.list.mem n).prev = none

/-- The answer to the next operation: `Create` issues a handle with an id that no live handle has,
`CreateWithSpecificId` the handle with the given id or the null handle. -/
def Answers (w : World) : Op → Prop
  | .create => ∃ m e, w.manager.create = some (m, e) ∧ e ≠ Entity.nullEntity ∧
      e.getId ∉ w.live.map Entity.getId
  | .createWithSpecificId entityId => ∃ m e, w.manager.createWithSpecificId entityId = some (m, e) ∧
      (e = Entity.nullEntity ∧ (∀ e' ∈ w.live, m.get e'.getId = e') ∨
        e ≠ Entity.nullEntity ∧ e.getId = entityId ∧ e.getId ∉ w.live.map Entity.getId)
  | .destroy _ => True

/-- The invariant: the nodes of the allocated chain stand for the live handles, latest first. The
back pointers of the heads may be stale. -/
structure Tracks (w : World) (pf pa : Option Nat) (free alloc : List Nat) : Prop where
  /-- The chains of the slot list. -/
  chains : Chains w.manager.list pf pa free alloc
  /-- Ids fit their 20 bits. -/
  id_lt : ∀ n ∈ alloc, n < 2 ^ 20
  /-- Versions fit their 12 bits. -/
  version_lt : ∀ n ∈ alloc, (w.manager.list.mem n).data.toNat < 2 ^ 12
  /-- No node stands for the null handle. -/
  handle_ne : ∀ n ∈ alloc, handle w.manager.list n ≠ Entity.nullEntity
  /-- The live handles. -/
  live_eq : w.live = alloc.map (handle w.manager.list)

variable {w w' : World} {pf pa : Option Nat} {free alloc : List Nat} {l l' : EntityList} {n : Nat}

theorem nodesPerPage_le : entityLayout.nodesPerPage ≤ 2 ^ 31 := by decide

theorem toNat_getIncrementVersion_lt (v : UInt32) : (getIncrementVersion v).toNat < 2 ^ 12 := by
  have hmask : (getIncrementVersion v).toNat = (v + 1).toNat % 2 ^ 12 := by
    rw [← Nat.and_two_pow_sub_one_eq_mod, getIncrementVersion, UInt32.toNat_and]
    rfl
  rw [hmask]
  exact Nat.mod_lt _ (by decide)

theorem toNat_ofNat_small (hn : n < 2 ^ 20) : (UInt32.ofNat n).toNat = n :=
  toNat_ofNat (by omega)

theorem getId_handle (l : EntityList) (hn : n < 2 ^ 20) : (handle l n).getId = UInt32.ofNat n :=
  Entity.getId_ofIdVersion _ (by rwa [toNat_ofNat_small hn])

theorem toNat_getId_handle (l : EntityList) (hn : n < 2 ^ 20) : (handle l n).getId.toNat = n := by
  rw [getId_handle l hn, toNat_ofNat_small hn]

/-- Different slots have handles with different ids. -/
theorem nodup_getId_handle (l : EntityList) (hnd : alloc.Nodup) (hlt : ∀ n ∈ alloc, n < 2 ^ 20) :
    ((alloc.map (handle l)).map Entity.getId).Nodup := by
  rw [List.map_map]
  refine List.Nodup.map_on (fun a ha b hb hab => ?_) hnd
  rw [← toNat_getId_handle l (hlt a ha), ← toNat_getId_handle l (hlt b hb)]
  exact congrArg UInt32.toNat hab

/-- The id of a live handle is that of an allocated slot. -/
theorem Tracks.getId_mem (h : Tracks w pf pa free alloc) {id : UInt32}
    (hid : id ∈ w.live.map Entity.getId) : id.toNat ∈ alloc := by
  rw [h.live_eq, List.map_map] at hid
  obtain ⟨n, hn, rfl⟩ := List.mem_map.mp hid
  rw [Function.comp_apply, toNat_getId_handle _ (h.id_lt n hn)]
  exact hn

/-- `Get` finds the node of an allocated slot. -/
theorem get_eq_of_mem (h : Chains l pf pa free alloc) {id : UInt32} (hid : id.toNat ∈ alloc) :
    l.get id = some id.toNat := by
  have hlt := h.lt_of_alloc hid
  rw [get_eq, if_pos ⟨hlt, (h.allocated_iff _ hlt).mpr hid⟩]

theorem get_eq_of_not_mem (h : Chains l pf pa free alloc) {id : UInt32} (hid : id.toNat ∉ alloc) :
    l.get id = none :=
  Option.not_isSome_iff_eq_none.mp fun hs => hid ((h.get_isSome id).mp hs)

/-- The invariant is what the callers rely on. -/
theorem Tracks.unambiguous (h : Tracks w pf pa free alloc) : Unambiguous w where
  ids_nodup := by
    rw [h.live_eq]
    exact nodup_getId_handle _ h.chains.alloc_linked.nodup h.id_lt
  not_null hmem := by
    rw [h.live_eq] at hmem
    obtain ⟨n, hn, heq⟩ := List.mem_map.mp hmem
    exact h.handle_ne n hn heq
  get_eq e he := by
    rw [h.live_eq] at he
    obtain ⟨n, hn, rfl⟩ := List.mem_map.mp he
    have hid := toNat_getId_handle w.manager.list (h.id_lt n hn)
    have hget := get_eq_of_mem h.chains (show (handle w.manager.list n).getId.toNat ∈ alloc by rwa [hid])
    rw [EntityManager.get, hget, hid, getId_handle _ (h.id_lt n hn)]
    rfl
  iterate_eq := by
    refine ⟨alloc.length, _, by rw [EntityManager.iterate, h.chains.iterate le_rfl]; rfl, ?_⟩
    rw [h.live_eq]
    exact List.Perm.of_eq List.map_map

theorem tracks_fresh (raw : Memory UInt32) : Tracks ⟨fresh raw, []⟩ none none [] [] where
  chains := chains_empty _ raw
  id_lt := by simp
  version_lt := by simp
  handle_ne := by simp
  live_eq := rfl

/-! ## Issuing a handle -/

/-- **Issuing.** When the slot `n` has come to the allocated chain and its version been stepped, the
new handle is that of `n`. -/
theorem Tracks.issue (h : Tracks w pf pa free alloc) {pf' pa' : Option Nat} {free' : List Nat}
    {v : UInt32} (hch : Chains l' pf' pa' free' (n :: alloc))
    (hdata : ∀ k ∈ alloc, (l'.mem k).data = (w.manager.list.mem k).data) (hn : n < 2 ^ 20)
    (hv : v.toNat < 2 ^ 12)
    (hne : Entity.ofIdVersion (UInt32.ofNat n) v ≠ Entity.nullEntity) :
    Tracks (w.issue (⟨l'.setData n v⟩, Entity.ofIdVersion (UInt32.ofNat n) v)) pf' pa' free'
      (n :: alloc) := by
  have hnot : n ∉ alloc := (List.nodup_cons.mp hch.alloc_linked.nodup).1
  have hother : ∀ k ∈ alloc, ((l'.setData n v).mem k).data = (w.manager.list.mem k).data := by
    intro k hk
    rw [data_setData, if_neg (ne_of_mem_of_not_mem hk hnot), hdata k hk]
  have hself : ((l'.setData n v).mem n).data = v := by rw [data_setData, if_pos rfl]
  refine ⟨Chains.setData hch n v, ?_, ?_, ?_, ?_⟩
  · exact List.forall_mem_cons.mpr ⟨hn, h.id_lt⟩
  · refine List.forall_mem_cons.mpr ⟨by simpa [World.issue, hself] using hv, fun k hk => ?_⟩
    simpa only [World.issue, hother k hk] using h.version_lt k hk
  · refine List.forall_mem_cons.mpr ⟨by simpa [World.issue, handle, hself] using hne, fun k hk => ?_⟩
    simpa only [World.issue, handle, hother k hk] using h.handle_ne k hk
  · simp only [World.issue, if_neg hne, List.map_cons, h.live_eq, handle, hself]
    refine congrArg _ (List.map_congr_left fun k hk => ?_)
    rw [handle, handle, hother k hk]

/-- `Create` issues the handle of the next free slot. -/
theorem tracks_create (h : Tracks w pf pa free alloc) (hok : Safe w .create) :
    Answers w .create ∧ ∃ w', step w .create = some w' ∧ ∃ pf pa free alloc,
      Tracks w' pf pa free alloc := by
  obtain ⟨hlt, hlast⟩ := hok
  obtain ⟨l', free', heq, hch, hnot, hext, hsame, -⟩ := create_spec nodesPerPage_le h.chains
  set n := w.manager.list.nextFree with hn
  set v := getIncrementVersion (l'.mem n).data with hv
  have hcreate : w.manager.create =
      some (⟨l'.setData n v⟩, Entity.ofIdVersion (UInt32.ofNat n) v) := by
    simp [EntityManager.create, heq, hv]
  have hvlt : v.toNat < 2 ^ 12 := toNat_getIncrementVersion_lt _
  have hidlt : (UInt32.ofNat n).toNat < 2 ^ 20 := by rwa [toNat_ofNat_small hlt]
  have hne : Entity.ofIdVersion (UInt32.ofNat n) v ≠ Entity.nullEntity := by
    intro hnull
    obtain ⟨hid, hver⟩ := (Entity.ofIdVersion_eq_null_iff hidlt hvlt).mp hnull
    have hnid : n = 2 ^ 20 - 1 := by
      rw [← toNat_ofNat_small hlt, hid]
      decide
    refine hlast hnid (UInt32.toNat_inj.mp ?_)
    rw [← hnid, ← hsame.2.2 n, ← hv, hver]
    decide
  refine ⟨⟨_, _, hcreate, hne, fun hmem => ?_⟩, _, by simp [step, hcreate], _, _, _, _,
    h.issue hch (fun k hk => data_eq_of_extends h.chains hext hsame hk) hlt hvlt hne⟩
  rw [Entity.getId_ofIdVersion _ hidlt] at hmem
  exact hnot (by simpa [toNat_ofNat_small hlt] using h.getId_mem hmem)

/-- `CreateWithSpecificId` issues the handle of the slot it is given, or the null handle. -/
theorem tracks_createWithSpecificId (h : Tracks w pf pa free alloc) (entityId : UInt32)
    (hok : Safe w (.createWithSpecificId entityId)) :
    Answers w (.createWithSpecificId entityId) ∧
      ∃ w', step w (.createWithSpecificId entityId) = some w' ∧ ∃ pf pa free alloc,
        Tracks w' pf pa free alloc := by
  by_cases hnull : entityId = Entity.nullId
  · have heq : w.manager.createWithSpecificId entityId = some (w.manager, Entity.nullEntity) := by
      rw [createWithSpecificId, if_pos hnull]
    exact ⟨⟨_, _, heq, Or.inl ⟨rfl, h.unambiguous.get_eq⟩⟩, w, by simp [step, heq, World.issue],
      pf, pa, free, alloc, h⟩
  by_cases hi : entityId.toNat ∈ alloc
  · have heq : w.manager.createWithSpecificId entityId = some (w.manager, Entity.nullEntity) := by
      rw [createWithSpecificId, if_neg hnull, createAt_of_mem h.chains hi]
      rfl
    exact ⟨⟨_, _, heq, Or.inl ⟨rfl, h.unambiguous.get_eq⟩⟩, w, by simp [step, heq, World.issue],
      pf, pa, free, alloc, h⟩
  have hnone := get_eq_of_not_mem h.chains hi
  obtain ⟨hlt, hhead⟩ : entityId.toNat < 2 ^ 20 ∧ _ := by simpa [Safe, hnull, hnone] using hok
  obtain ⟨e, pf', free', heq, hche, hext, hfree, hold, hnew⟩ :=
    createAt_of_not_mem nodesPerPage_le h.chains hi
  obtain ⟨as, bs, hsplit⟩ := List.append_of_mem hfree
  subst hsplit
  set l' := e.allocateNode entityId.toNat with hl'
  set v := getIncrementVersion (l'.mem entityId.toNat).data with hv
  -- A stale back pointer at the head of the free list is excluded by the condition.
  have hpf : as = [] → pf' = none := by
    rintro rfl
    by_cases hcount : entityId.toNat < w.manager.list.nodeCount
    · obtain ⟨rfl, rfl, -⟩ := hold hcount
      exact hche.free_linked.2.1.symm.trans (hhead hche.free_linked.1)
    · exact (hnew (by omega)).1
  have hmove := hche.allocateNode hpf
  have hcreate : w.manager.createWithSpecificId entityId =
      some (⟨l'.setData entityId.toNat v⟩, Entity.ofIdVersion entityId v) := by
    rw [createWithSpecificId, if_neg hnull, heq]
    rfl
  have hvlt : v.toNat < 2 ^ 12 := toNat_getIncrementVersion_lt _
  have hne : Entity.ofIdVersion entityId v ≠ Entity.nullEntity := fun he =>
    hnull ((Entity.ofIdVersion_eq_null_iff hlt hvlt).mp he).1
  have hself : UInt32.ofNat entityId.toNat = entityId := UInt32.ofNat_toNat ..
  have hissue := h.issue hmove
    (fun k hk => data_eq_of_extends h.chains hext (sameData_allocateNode _) hk) hlt hvlt
    (by rwa [hself])
  rw [hself] at hissue
  refine ⟨⟨_, _, hcreate, Or.inr ⟨hne, ?_, fun hmem => ?_⟩⟩, _, by rw [step, hcreate]; rfl,
    _, _, _, _, hissue⟩
  · exact Entity.getId_ofIdVersion _ hlt
  · rw [Entity.getId_ofIdVersion _ hlt] at hmem
    exact hi (h.getId_mem hmem)

/-! ## Destroying a handle -/

/-- A live handle is recognised by its slot and version. -/
theorem Tracks.mem_live_iff (h : Tracks w pf pa free alloc) (e : Entity) :
    e ∈ w.live ↔ e.getId.toNat ∈ alloc ∧ (w.manager.list.mem e.getId.toNat).data = e.getVersion := by
  rw [h.live_eq, List.mem_map]
  constructor
  · rintro ⟨n, hn, rfl⟩
    rw [toNat_getId_handle _ (h.id_lt n hn)]
    exact ⟨hn, (Entity.getVersion_ofIdVersion _ (h.version_lt n hn)).symm⟩
  · rintro ⟨hn, hv⟩
    refine ⟨_, hn, ?_⟩
    rw [handle, hv, UInt32.ofNat_toNat]
    exact Entity.ofIdVersion_getId_getVersion e

/-- `Destroy` on a handle that is not live does nothing. -/
theorem Tracks.destroy_of_not_mem (h : Tracks w pf pa free alloc) {e : Entity} (he : e ∉ w.live) :
    w.manager.destroy e = w.manager := by
  rw [h.mem_live_iff] at he
  by_cases hi : e.getId.toNat ∈ alloc
  · rw [destroy, get_eq_of_mem h.chains hi]
    exact if_pos fun hv => he ⟨hi, hv⟩
  · rw [destroy, get_eq_of_not_mem h.chains hi]

/-- `Destroy` takes the slot of a live handle back. -/
theorem tracks_destroy (h : Tracks w pf pa free alloc) (e : Entity) (hok : Safe w (.destroy e)) :
    ∃ w', step w (.destroy e) = some w' ∧ ∃ pf pa free alloc, Tracks w' pf pa free alloc := by
  refine ⟨_, rfl, ?_⟩
  by_cases he : e ∈ w.live
  · obtain ⟨hi, hv⟩ := (h.mem_live_iff e).mp he
    set n := e.getId.toNat with hn
    have hget : w.manager.list.get e.getId = some n := get_eq_of_mem h.chains hi
    obtain ⟨as, bs, hsplit⟩ := List.append_of_mem hi
    subst hsplit
    have hpa : as = [] → pa = none := by
      rintro rfl
      exact h.chains.alloc_linked.2.1.symm.trans (hok n hget hv h.chains.alloc_linked.1)
    have hmove := h.chains.freeNode hpa
    have hdata := (sameData_freeNode (l := w.manager.list) n).2.2
    have hhandle : handle (w.manager.list.freeNode n) = handle w.manager.list := by
      funext k
      rw [handle, handle, hdata k]
    have hdestroy : w.manager.destroy e = ⟨w.manager.list.freeNode n⟩ := by
      rw [destroy, hget, erase_eq h.chains, if_pos hi]
      exact if_neg (not_not.mpr hv)
    have hmem : ∀ k, k ∈ as ++ bs → k ∈ as ++ n :: bs := fun k hk => by
      rcases List.mem_append.mp hk with hk | hk <;> simp [hk]
    have heq : e = handle w.manager.list n := by
      rw [handle, hv, hn, UInt32.ofNat_toNat]
      exact (Entity.ofIdVersion_getId_getVersion e).symm
    have hlive : w.live.erase e = (as ++ bs).map (handle w.manager.list) := by
      have hnd := nodup_getId_handle w.manager.list h.chains.alloc_linked.nodup h.id_lt
      have hnotin : e ∉ as.map (handle w.manager.list) := by
        rw [List.map_append, List.map_append, List.map_cons] at hnd
        intro hin
        refine (List.nodup_append.mp hnd).2.2 _ (List.mem_map_of_mem hin) e.getId ?_ rfl
        rw [List.map_cons, ← heq]
        exact List.mem_cons_self ..
      rw [h.live_eq, List.map_append, List.map_cons, List.erase_append_right _ hnotin, ← heq,
        List.erase_cons_head, List.map_append]
    rw [hdestroy, hlive]
    refine ⟨_, _, _, _, hmove, fun k hk => h.id_lt k (hmem k hk), fun k hk => ?_, fun k hk => ?_, ?_⟩
    · rw [hdata k]
      exact h.version_lt k (hmem k hk)
    · rw [hhandle]
      exact h.handle_ne k (hmem k hk)
    · rw [hhandle]
  · rw [h.destroy_of_not_mem he, List.erase_of_not_mem he]
    exact ⟨pf, pa, free, alloc, h⟩

/-! ## Runs -/

/-- One safe operation. -/
theorem tracks_step (h : ∃ pf pa free alloc, Tracks w pf pa free alloc) (op : Op) (hok : Safe w op) :
    Answers w op ∧ ∃ w', step w op = some w' ∧ ∃ pf pa free alloc, Tracks w' pf pa free alloc := by
  obtain ⟨pf, pa, free, alloc, h⟩ := h
  cases op with
  | create => exact tracks_create h hok
  | createWithSpecificId entityId => exact tracks_createWithSpecificId h entityId hok
  | destroy e => exact ⟨trivial, tracks_destroy h e hok⟩

/-- **Unambiguous handles.** A run from a fresh manager whose steps are all safe goes through, the
handles live after it are unambiguous, and a further safe operation is answered as its caller
expects. -/
theorem handles_unambiguous (raw : Memory UInt32) (ops : List Op)
    (hok : Meets step Safe ⟨fresh raw, []⟩ ops) :
    ∃ w, run step ⟨fresh raw, []⟩ ops = some w ∧ Unambiguous w ∧ ∀ op, Safe w op → Answers w op := by
  have htotal := run_total (P := fun w => ∃ pf pa free alloc, Tracks w pf pa free alloc)
    (fun w op hw hsafe => (tracks_step hw op hsafe).2) ⟨_, _, _, _, tracks_fresh raw⟩ hok
  obtain ⟨w, hrun, hw⟩ := htotal
  have ⟨_, _, _, _, htracks⟩ := hw
  exact ⟨w, hrun, htracks.unambiguous, fun op hsafe => (tracks_step hw op hsafe).1⟩

/-- Memory of zeroes. -/
def zeroedMemory : Memory UInt32 := fun _ => ⟨0, false, none, none, 0⟩

/-- Whether a step meets the condition can be computed. -/
instance (w : World) : (op : Op) → Decidable (Safe w op)
  | .create => by unfold Safe; infer_instance
  | .createWithSpecificId _ => by unfold Safe; infer_instance
  | .destroy e => decidable_of_iff (∀ n ∈ w.manager.list.get e.getId,
      (w.manager.list.mem n).data = e.getVersion → w.manager.list.allocatedHead = some n →
        (w.manager.list.mem n).prev = none) Iff.rfl

/-- Three handles are issued, one of them for a given slot, and the one in the middle is destroyed. -/
def createAndDestroy : List Op :=
  [.createWithSpecificId 1, .create, .create, .createWithSpecificId Entity.nullId,
    .destroy (Entity.ofIdVersion 0 1)]

theorem handles_unambiguous_createAndDestroy :
    ∃ w, run step ⟨fresh zeroedMemory, []⟩ createAndDestroy = some w ∧
      w.live = [Entity.ofIdVersion 2 1, Entity.ofIdVersion 1 1] ∧ Unambiguous w ∧
      ∀ op, Safe w op → Answers w op := by
  obtain ⟨w, hrun, hw⟩ := handles_unambiguous zeroedMemory createAndDestroy (by decide +kernel)
  have hlive : (run step ⟨fresh zeroedMemory, []⟩ createAndDestroy).map World.live =
      some [Entity.ofIdVersion 2 1, Entity.ofIdVersion 1 1] := by decide +kernel
  rw [hrun] at hlive
  exact ⟨w, hrun, Option.some.inj hlive, hw⟩

/-- An iteration that starts at a node yields it. -/
theorem iterate_ne_nil (m : EntityManager) (hm : m.list.allocatedHead = some n) (fuel : Nat) :
    m.iterate fuel ≠ some [] := by
  cases fuel <;> simp [EntityManager.iterate, IndexedUnmanagedList.iterate, hm, iterateFrom]

/-- Destroying the handle of slot 1, the first one ever issued, leaves the slot at the head of the
allocated list: iterating yields handles although none is live. -/
theorem iterate_after_destroy :
    ∃ w, run step ⟨fresh zeroedMemory, []⟩
        [.createWithSpecificId 1, .destroy (Entity.ofIdVersion 1 1)] = some w ∧
      w.live = [] ∧ ∀ fuel, w.manager.iterate fuel ≠ some [] := by
  have hempty : Chains (fresh zeroedMemory).list none none [] [] := chains_empty _ _
  obtain ⟨e, pf, free, heq, hche, hext, hfree, -, hnew⟩ :=
    createAt_of_not_mem nodesPerPage_le hempty (show (1 : UInt32).toNat ∉ [] by simp)
  rw [show (1 : UInt32).toNat = 1 from rfl] at heq hfree hnew
  obtain ⟨rfl, hhead⟩ := hnew (by decide)
  -- The slot is inside of the free list, so it comes to the allocated list with a back pointer.
  have hprev : e.mem.prev 1 ≠ none := by
    intro hnone
    have h1 := (hche.free_linked.prev_eq_none_iff hfree).mp hnone
    rw [hhead] at h1
    exact absurd h1 (by decide)
  obtain ⟨as, bs, rfl⟩ := List.append_of_mem hfree
  have hmove := hche.allocateNode fun _ => rfl
  have hversion : getIncrementVersion ((e.allocateNode 1).mem 1).data = 1 := by
    obtain ⟨d, hd⟩ := hext.new 1 (by decide) (hche.lt_of_free hfree)
    rw [(sameData_allocateNode 1).2.2 1, Memory.data_eq_slot, hd]
    change getIncrementVersion 0 = 1
    decide
  set l := (e.allocateNode 1).setData 1 1 with hl
  have hch : Chains l _ _ _ _ := Chains.setData hmove 1 1
  have hstep : step ⟨fresh zeroedMemory, []⟩ (.createWithSpecificId 1) =
      some ⟨⟨l⟩, [Entity.ofIdVersion 1 1]⟩ := by
    have hcreate : (fresh zeroedMemory).createWithSpecificId 1 =
        some (⟨l⟩, Entity.ofIdVersion 1 1) := by
      rw [createWithSpecificId, if_neg (by decide), heq]
      simp only [Option.map_some, hversion, hl]
    rw [step, hcreate]
    rfl
  refine ⟨⟨⟨l.freeNode 1⟩, []⟩, ?_, rfl, iterate_ne_nil (n := 1) _ ?_⟩
  · have hget : l.get 1 = some 1 := get_eq_of_mem hch (List.mem_cons_self ..)
    have hdata : (l.mem 1).data = 1 := by rw [hl, data_setData, if_pos rfl]
    have hdestroy : EntityManager.destroy ⟨l⟩ (Entity.ofIdVersion 1 1) = ⟨l.freeNode 1⟩ := by
      have hid : (Entity.ofIdVersion 1 1).getId = 1 := by decide
      have hver : (Entity.ofIdVersion 1 1).getVersion = 1 := by decide
      rw [destroy, hid, hver]
      simp only [hget]
      rw [if_neg (by simp [hdata]), erase_eq hch]
      rfl
    rw [run_cons, hstep]
    simp [run_cons, step, hdestroy]
  · have hp : l.mem.prev 1 ≠ none := by
      rw [hch.alloc_linked.2.1]
      exact hprev
    obtain ⟨q, hq⟩ := Option.ne_none_iff_exists'.mp hp
    simp only [freeNode, unlink_of_prev_some hq]
    rfl

end EntityManager

end RatkiniaServer
