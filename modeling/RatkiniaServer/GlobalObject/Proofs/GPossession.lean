import RatkiniaServer.GlobalObject.GPossession
import RatkiniaServer.MemoryPool.Proofs.SparseList
import RatkiniaServer.Proofs.EntityManager

/-!
# Possession is a partial bijection

Both maps are only filled by `EmplaceAt`, so what they hold goes by the flags of their slots alone. The
entries of the two stand in pairs, and each call puts in or takes out a pair.
-/

namespace RatkiniaServer.G_Possession

open MemoryPool MemoryPool.SparseList Transition

/-! ## Two maps whose entries stand in pairs -/

/-- Each context with its entity stands opposite the id of this entity with its version and the
context, and there are no other entries. -/
structure Paired (entityOf : UInt32 → Option Entity) (contextOf : UInt32 → Option (UInt32 × UInt32)) :
    Prop where
  iff : ∀ context entity, entityOf context = some entity ↔
    contextOf entity.getId = some (entity.getVersion, context)
  entity : ∀ id versionContext, contextOf id = some versionContext →
    ∃ entity : Entity, entity.getId = id ∧ entity.getVersion = versionContext.1

variable {entityOf : UInt32 → Option Entity} {contextOf : UInt32 → Option (UInt32 × UInt32)}
  {context : UInt32} {entity : Entity}

theorem paired_empty : Paired (fun _ => none) fun _ => none := ⟨by simp, by simp⟩

/-- A context and an id that have no entry get one each. -/
theorem Paired.insert (h : Paired entityOf contextOf) (hcontext : entityOf context = none)
    (hid : contextOf entity.getId = none) :
    Paired (Function.update entityOf context (some entity))
      (Function.update contextOf entity.getId (some (entity.getVersion, context))) where
  iff context' entity' := by
    by_cases hc : context' = context
    · subst hc
      rw [Function.update_self]
      by_cases he : entity'.getId = entity.getId
      · rw [he, Function.update_self, Option.some.injEq, Option.some.injEq, Prod.mk.injEq]
        constructor
        · rintro rfl
          exact ⟨rfl, rfl⟩
        · rintro ⟨hversion, -⟩
          exact Entity.ext_of_getId_of_getVersion he.symm hversion
      · rw [Function.update_of_ne he, ← h.iff, hcontext]
        refine ⟨fun heq => ?_, nofun⟩
        rw [Option.some.inj heq] at he
        exact absurd rfl he
    · rw [Function.update_of_ne hc, h.iff]
      by_cases he : entity'.getId = entity.getId
      · rw [he, Function.update_self, hid]
        refine ⟨nofun, fun heq => ?_⟩
        rw [Option.some.injEq, Prod.mk.injEq] at heq
        exact absurd heq.2.symm hc
      · rw [Function.update_of_ne he]
  entity id versionContext heq := by
    by_cases hi : id = entity.getId
    · subst hi
      rw [Function.update_self] at heq
      exact ⟨entity, rfl, by rw [← Option.some.inj heq]⟩
    · rw [Function.update_of_ne hi] at heq
      exact h.entity id versionContext heq

/-- A context with its entity goes. -/
theorem Paired.erase (h : Paired entityOf contextOf) (hcontext : entityOf context = some entity) :
    Paired (Function.update entityOf context none) (Function.update contextOf entity.getId none) where
  iff context' entity' := by
    by_cases hc : context' = context
    · subst hc
      rw [Function.update_self]
      refine ⟨nofun, fun heq => ?_⟩
      by_cases he : entity'.getId = entity.getId
      · rw [he, Function.update_self] at heq
        cases heq
      · rw [Function.update_of_ne he, ← h.iff, hcontext] at heq
        rw [Option.some.inj heq] at he
        exact absurd rfl he
    · rw [Function.update_of_ne hc, h.iff]
      by_cases he : entity'.getId = entity.getId
      · rw [he, Function.update_self, (h.iff context entity).mp hcontext]
        refine ⟨fun heq => ?_, nofun⟩
        rw [Option.some.injEq, Prod.mk.injEq] at heq
        exact absurd heq.2.symm hc
      · rw [Function.update_of_ne he]
  entity id versionContext heq := by
    by_cases hi : id = entity.getId
    · rw [hi, Function.update_self] at heq
      cases heq
    · rw [Function.update_of_ne hi] at heq
      exact h.entity id versionContext heq

/-- An entry of an id stands opposite that of its context. -/
theorem Paired.of_contextOf (h : Paired entityOf contextOf) {id version : UInt32}
    (hid : contextOf id = some (version, context)) :
    ∃ entity : Entity, entity.getId = id ∧ entity.getVersion = version ∧
      entityOf context = some entity := by
  obtain ⟨entity, rfl, hversion⟩ := h.entity id _ hid
  refine ⟨entity, rfl, hversion, (h.iff context entity).mpr ?_⟩
  rw [hid, hversion]

/-! ## The calls -/

/-- The two lists stand for maps whose entries stand in pairs. -/
def Consistent (g : G_Possession) : Prop :=
  ∃ entityOf contextOf, Represents g.contextEntityMap entityOf ∧
    Represents g.entityContextMap contextOf ∧ Paired entityOf contextOf

variable {g g' : G_Possession}

theorem Consistent.paired (h : Consistent g) :
    Paired g.contextEntityMap.get g.entityContextMap.get := by
  obtain ⟨entityOf, contextOf, hentity, hcontext, hpaired⟩ := h
  rwa [hentity.get, hcontext.get]

theorem nodesPerPage_entitySizes : entitySizes.sparse.nodesPerPage ≤ 2 ^ 31 := by decide

theorem nodesPerPage_versionContextSizes : versionContextSizes.sparse.nodesPerPage ≤ 2 ^ 31 := by
  decide

/-- `TryPossess` passes the checks of both lists. -/
theorem Consistent.tryPossess (h : Consistent g) (context : UInt32) (entity : Entity) :
    ∃ g' result, g.tryPossess context entity = some (g', result) ∧ Consistent g' ∧
      (result ≠ .success → g' = g) := by
  rw [G_Possession.tryPossess]
  split_ifs with hc he
  · exact ⟨g, _, rfl, h, fun _ => rfl⟩
  · exact ⟨g, _, rfl, h, fun _ => rfl⟩
  · obtain ⟨entityOf, contextOf, hentity, hcontext, hpaired⟩ := h
    rw [hentity.get, Option.not_isSome_iff_eq_none] at hc
    rw [hcontext.get, Option.not_isSome_iff_eq_none] at he
    obtain ⟨l, hl, hentity'⟩ := hentity.emplaceAt nodesPerPage_entitySizes hc entity
    obtain ⟨l', hl', hcontext'⟩ := hcontext.emplaceAt nodesPerPage_versionContextSizes he
      (entity.getVersion, context)
    refine ⟨⟨l, l'⟩, .success, ?_, ⟨_, _, hentity', hcontext', hpaired.insert hc he⟩,
      fun hne => absurd rfl hne⟩
    rw [hl, hl']
    rfl

/-- `UnpossessByContext` passes the checks of both lists. -/
theorem Consistent.unpossessByContext (h : Consistent g) (context : UInt32) :
    ∃ g', g.unpossessByContext context = some g' ∧ Consistent g' ∧
      (g.contextEntityMap.get context = none → g' = g) := by
  rw [G_Possession.unpossessByContext]
  cases hc : g.contextEntityMap.get context with
  | none => exact ⟨g, rfl, h, fun _ => rfl⟩
  | some entity =>
    obtain ⟨entityOf, contextOf, hentity, hcontext, hpaired⟩ := h
    rw [hentity.get] at hc
    obtain ⟨l, hl, hentity'⟩ := hentity.eraseBySparseIndex hc
    obtain ⟨l', hl', hcontext'⟩ := hcontext.eraseBySparseIndex ((hpaired.iff context entity).mp hc)
    refine ⟨⟨l, l'⟩, ?_, ⟨_, _, hentity', hcontext', hpaired.erase hc⟩, nofun⟩
    dsimp only
    rw [hl, hl']
    rfl

/-- `UnpossessByEntity` passes the checks of both lists. -/
theorem Consistent.unpossessByEntity (h : Consistent g) (entity : Entity) :
    ∃ g', g.unpossessByEntity entity = some g' ∧ Consistent g' ∧
      ((∀ versionContext, g.entityContextMap.get entity.getId = some versionContext →
        versionContext.1 ≠ entity.getVersion) → g' = g) := by
  rw [G_Possession.unpossessByEntity]
  cases he : g.entityContextMap.get entity.getId with
  | none => exact ⟨g, rfl, h, fun _ => rfl⟩
  | some versionContext =>
    dsimp only
    split_ifs with hversion
    · exact ⟨g, rfl, h, fun _ => rfl⟩
    · rw [not_not] at hversion
      obtain ⟨entityOf, contextOf, hentity, hcontext, hpaired⟩ := h
      rw [hcontext.get] at he
      have hc : entityOf versionContext.2 = some entity := by
        rw [hpaired.iff, he, ← hversion]
      obtain ⟨l, hl, hentity'⟩ := hentity.eraseBySparseIndex hc
      obtain ⟨l', hl', hcontext'⟩ := hcontext.eraseBySparseIndex he
      refine ⟨⟨l, l'⟩, ?_, ⟨_, _, hentity', hcontext', hpaired.erase hc⟩, fun hne => ?_⟩
      · rw [hl, hl']
        rfl
      · exact absurd hversion (hne versionContext rfl)

/-- The contexts of erased sessions, one after the other. -/
theorem Consistent.unpossessOnDisconnected (h : Consistent g) (contexts : List UInt32) :
    ∃ g', g.unpossessOnDisconnected contexts = some g' ∧ Consistent g' := by
  induction contexts generalizing g with
  | nil => exact ⟨g, rfl, h⟩
  | cons context contexts ih =>
    obtain ⟨g1, heq1, h1, -⟩ := h.unpossessByContext context
    obtain ⟨g2, heq2, h2⟩ := ih h1
    refine ⟨g2, ?_, h2⟩
    rw [G_Possession.unpossessOnDisconnected, List.foldlM_cons, heq1]
    exact heq2

theorem Consistent.step (h : Consistent g) (op : Op) :
    ∃ g', G_Possession.step g op = some g' ∧ Consistent g' := by
  cases op with
  | tryPossess context entity =>
    obtain ⟨g', result, heq, h', -⟩ := h.tryPossess context entity
    refine ⟨g', ?_, h'⟩
    rw [G_Possession.step, heq]
    rfl
  | unpossessByContext context =>
    obtain ⟨g', heq, h', -⟩ := h.unpossessByContext context
    exact ⟨g', heq, h'⟩
  | unpossessByEntity entity =>
    obtain ⟨g', heq, h', -⟩ := h.unpossessByEntity entity
    exact ⟨g', heq, h'⟩
  | unpossessOnDisconnected contexts => exact h.unpossessOnDisconnected contexts

/-! ## Runs -/

/-- The entries of the two maps stand in pairs, and neither an entity id nor a context is in two of
them. -/
structure Bijection (g : G_Possession) : Prop where
  paired : Paired g.contextEntityMap.get g.entityContextMap.get
  context_unique : ∀ context context' entity entity',
    g.contextEntityMap.get context = some entity → g.contextEntityMap.get context' = some entity' →
      entity.getId = entity'.getId → context = context'
  id_unique : ∀ id id' version version' context,
    g.entityContextMap.get id = some (version, context) →
      g.entityContextMap.get id' = some (version', context) → id = id'

theorem Paired.bijection (h : Paired g.contextEntityMap.get g.entityContextMap.get) : Bijection g := by
  refine ⟨h, fun context context' entity entity' hc hc' hid => ?_,
    fun id id' version version' context hid hid' => ?_⟩
  · have heq := (h.iff _ _).mp hc
    rw [hid, (h.iff _ _).mp hc', Option.some.injEq, Prod.mk.injEq] at heq
    exact heq.2.symm
  · obtain ⟨entity, rfl, -, hc⟩ := h.of_contextOf hid
    obtain ⟨entity', rfl, -, hc'⟩ := h.of_contextOf hid'
    rw [hc] at hc'
    rw [Option.some.inj hc']

theorem consistent_fresh (rawEntity : Memory (SparseBlock Entity))
    (rawContext : Memory (SparseBlock (UInt32 × UInt32))) (rawDense rawDense' : Nat → UInt32) :
    Consistent (fresh rawEntity rawContext rawDense rawDense') :=
  ⟨_, _, represents_empty rawEntity rawDense, represents_empty rawContext rawDense', paired_empty⟩

/-- **Possession is a partial bijection.** Every run of calls goes through, and so does each call after
it: no check of the two lists ever fails. The entries of the two maps stand in pairs; a `TryPossess`
that is not a success, an `UnpossessByContext` of a context without an entity and an
`UnpossessByEntity` of an entity that is not possessed with its version leave both maps alone. -/
theorem possession_bijective (rawEntity : Memory (SparseBlock Entity))
    (rawContext : Memory (SparseBlock (UInt32 × UInt32))) (rawDense rawDense' : Nat → UInt32)
    (ops : List Op) :
    ∃ g, run step (fresh rawEntity rawContext rawDense rawDense') ops = some g ∧ Bijection g ∧
      (∀ context entity, ∃ g' result, g.tryPossess context entity = some (g', result) ∧
        (result ≠ .success → g' = g)) ∧
      (∀ context, ∃ g', g.unpossessByContext context = some g' ∧
        (g.contextEntityMap.get context = none → g' = g)) ∧
      ∀ entity, ∃ g', g.unpossessByEntity entity = some g' ∧
        ((∀ versionContext, g.entityContextMap.get entity.getId = some versionContext →
          versionContext.1 ≠ entity.getVersion) → g' = g) := by
  obtain ⟨g, hrun, hg⟩ := run_total' (P := Consistent) (fun g op h => h.step op)
    (consistent_fresh rawEntity rawContext rawDense rawDense') ops
  refine ⟨g, hrun, hg.paired.bijection, fun context entity => ?_, fun context => ?_, fun entity => ?_⟩
  · obtain ⟨g', result, heq, -, hsame⟩ := hg.tryPossess context entity
    exact ⟨g', result, heq, hsame⟩
  · obtain ⟨g', heq, -, hsame⟩ := hg.unpossessByContext context
    exact ⟨g', heq, hsame⟩
  · obtain ⟨g', heq, -, hsame⟩ := hg.unpossessByEntity entity
    exact ⟨g', heq, hsame⟩

end RatkiniaServer.G_Possession
