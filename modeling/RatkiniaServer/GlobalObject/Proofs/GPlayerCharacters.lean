import RatkiniaServer.GlobalObject.GPlayerCharacters
import RatkiniaServer.GlobalObject.Proofs.GPossession

/-!
# Ownership lookup

The maps are only filled, each call that returns with one entry for each of them. So each of them has
exactly the entries that the calls so far gave it, and what the three say of an entity or of a character
goes back to one and the same call.
-/

namespace RatkiniaServer.G_PlayerCharacters

open MemoryPool MemoryPool.SparseList Transition
open G_Possession (nodesPerPage_entitySizes nodesPerPage_versionContextSizes)

/-- The three maps are in step: a character has an entity exactly where the id of this entity has its
version and the character, and the same ids have a player. -/
structure InStep (g : G_PlayerCharacters) : Prop where
  character : ∀ characterId entity, g.characterEntityMap.get characterId = some entity ↔
    g.entityCharacterMap.get entity.getId = some (entity.getVersion, characterId)
  player : ∀ id, (g.entityPlayerMap.get id).isSome = (g.entityCharacterMap.get id).isSome

/-- A call names a character or an entity id that one of the calls before it has named. -/
def Present (calls : List Ownership) (characterId id : UInt32) : Prop :=
  ∃ o ∈ calls, o.characterId = characterId ∨ o.entity.getId = id

/-! ## What the calls leave -/

/-- The three maps have the entries of the calls. -/
structure Registered (calls : List Ownership) (g : G_PlayerCharacters) : Prop where
  entities : Lists g.characterEntityMap (calls.map fun o => (o.characterId, o.entity))
  players : Lists g.entityPlayerMap
    (calls.map fun o => (o.entity.getId, o.entity.getVersion, o.playerId))
  characters : Lists g.entityCharacterMap
    (calls.map fun o => (o.entity.getId, o.entity.getVersion, o.characterId))

theorem registered_fresh (rawEntity : Memory (SparseBlock Entity))
    (rawPlayer rawCharacter : Memory (SparseBlock (UInt32 × UInt32)))
    (rawDense rawDense' rawDense'' : Nat → UInt32) :
    Registered [] (fresh rawEntity rawPlayer rawCharacter rawDense rawDense' rawDense'') :=
  ⟨lists_empty rawEntity rawDense, lists_empty rawPlayer rawDense',
    lists_empty rawCharacter rawDense''⟩

namespace Registered

variable {calls : List Ownership} {g : G_PlayerCharacters} {playerId characterId id : UInt32}
  {entity : Entity}

theorem characterEntityMap_eq_some (h : Registered calls g) :
    g.characterEntityMap.get characterId = some entity ↔
      ∃ o ∈ calls, o.characterId = characterId ∧ o.entity = entity := by
  rw [h.entities.get_iff, List.mem_map]
  simp only [Prod.mk.injEq]

theorem entityPlayerMap_eq_some (h : Registered calls g) {version : UInt32} :
    g.entityPlayerMap.get id = some (version, playerId) ↔
      ∃ o ∈ calls, o.entity.getId = id ∧ o.entity.getVersion = version ∧ o.playerId = playerId := by
  rw [h.players.get_iff, List.mem_map]
  simp only [Prod.mk.injEq]

theorem entityCharacterMap_eq_some (h : Registered calls g) {version : UInt32} :
    g.entityCharacterMap.get id = some (version, characterId) ↔
      ∃ o ∈ calls, o.entity.getId = id ∧ o.entity.getVersion = version ∧
        o.characterId = characterId := by
  rw [h.characters.get_iff, List.mem_map]
  simp only [Prod.mk.injEq]

theorem isSome_characterEntityMap (h : Registered calls g) :
    (g.characterEntityMap.get characterId).isSome ↔ ∃ o ∈ calls, o.characterId = characterId := by
  rw [h.entities.isSome_get_iff, List.map_map, List.mem_map]
  rfl

theorem isSome_entityPlayerMap (h : Registered calls g) :
    (g.entityPlayerMap.get id).isSome ↔ ∃ o ∈ calls, o.entity.getId = id := by
  rw [h.players.isSome_get_iff, List.map_map, List.mem_map]
  rfl

theorem isSome_entityCharacterMap (h : Registered calls g) :
    (g.entityCharacterMap.get id).isSome ↔ ∃ o ∈ calls, o.entity.getId = id := by
  rw [h.characters.isSome_get_iff, List.map_map, List.mem_map]
  rfl

theorem inStep (h : Registered calls g) : InStep g where
  character characterId entity := by
    rw [h.characterEntityMap_eq_some, h.entityCharacterMap_eq_some]
    constructor
    · rintro ⟨o, ho, rfl, rfl⟩
      exact ⟨o, ho, rfl, rfl, rfl⟩
    · rintro ⟨o, ho, hid, hversion, rfl⟩
      exact ⟨o, ho, rfl, Entity.ext_of_getId_of_getVersion hid hversion⟩
  player id := by
    rw [Bool.eq_iff_iff, h.isSome_entityPlayerMap, h.isSome_entityCharacterMap]

theorem present_iff (h : Registered calls g) : Present calls characterId id ↔
    (g.characterEntityMap.get characterId).isSome ∨ (g.entityCharacterMap.get id).isSome := by
  rw [h.isSome_characterEntityMap, h.isSome_entityCharacterMap, ← exists_or]
  simp only [Present, and_or_left]

/-- The integrity check of `AddOwnership` fails on what is present. -/
theorem integrityError_iff (h : Registered calls g) (characterId : UInt32) (entity : Entity) :
    ((g.characterEntityMap.get characterId).isSome || (g.entityPlayerMap.get entity.getId).isSome ||
      (g.entityCharacterMap.get entity.getId).isSome) = true ↔
      Present calls characterId entity.getId := by
  rw [Bool.or_eq_true, Bool.or_eq_true, h.isSome_entityPlayerMap, ← h.isSome_entityCharacterMap,
    or_assoc, or_self, h.present_iff]

theorem addOwnership_of_present (h : Registered calls g) (playerId : UInt32)
    (hp : Present calls characterId entity.getId) :
    g.addOwnership playerId characterId entity = .error g :=
  if_pos ((h.integrityError_iff characterId entity).mpr hp)

/-- Where nothing is present the checks of all three lists pass too. -/
theorem addOwnership_of_not_present (h : Registered calls g) (playerId : UInt32)
    (hp : ¬ Present calls characterId entity.getId) :
    ∃ g', g.addOwnership playerId characterId entity = .ok g' ∧
      Registered (calls ++ [⟨playerId, characterId, entity⟩]) g' := by
  have hcheck := mt (h.integrityError_iff characterId entity).mp hp
  have hnone := hcheck
  rw [Bool.or_eq_true, Bool.or_eq_true, not_or, not_or, Option.not_isSome_iff_eq_none,
    Option.not_isSome_iff_eq_none, Option.not_isSome_iff_eq_none] at hnone
  obtain ⟨⟨hentity, hplayer⟩, hcharacter⟩ := hnone
  obtain ⟨l, hl, hentities⟩ := h.entities.emplaceAt nodesPerPage_entitySizes hentity entity
  obtain ⟨l', hl', hplayers⟩ := h.players.emplaceAt nodesPerPage_versionContextSizes hplayer
    (entity.getVersion, playerId)
  obtain ⟨l'', hl'', hcharacters⟩ := h.characters.emplaceAt nodesPerPage_versionContextSizes
    hcharacter (entity.getVersion, characterId)
  refine ⟨⟨l, l', l''⟩, ?_, ?_, ?_, ?_⟩
  · rw [addOwnership]
    dsimp only
    rw [if_neg hcheck, hl]
    dsimp only
    rw [hl']
    dsimp only
    rw [hl'']
  · rwa [List.map_append]
  · rwa [List.map_append]
  · rwa [List.map_append]

theorem step (h : Registered calls g) (o : Ownership) :
    (Present calls o.characterId o.entity.getId ∧ G_PlayerCharacters.step g o = none) ∨
      (¬ Present calls o.characterId o.entity.getId ∧
        ∃ g', G_PlayerCharacters.step g o = some g' ∧ Registered (calls ++ [o]) g') := by
  by_cases hp : Present calls o.characterId o.entity.getId
  · refine Or.inl ⟨hp, ?_⟩
    rw [G_PlayerCharacters.step, h.addOwnership_of_present o.playerId hp]
    rfl
  · obtain ⟨g', heq, h'⟩ := h.addOwnership_of_not_present o.playerId hp
    refine Or.inr ⟨hp, g', ?_, h'⟩
    rw [G_PlayerCharacters.step, heq]
    rfl

/-- A run adds its calls to those that are registered. -/
theorem run (h : Registered calls g) {more : List Ownership} {g' : G_PlayerCharacters}
    (hrun : Transition.run G_PlayerCharacters.step g more = some g') :
    Registered (calls ++ more) g' := by
  induction more generalizing calls g with
  | nil => rwa [List.append_nil, ← Option.some.inj hrun]
  | cons o more ih =>
    obtain ⟨g1, hstep, hrest⟩ := run_cons_eq_some.mp hrun
    obtain ⟨-, hnone⟩ | ⟨-, g2, hsome, h2⟩ := h.step o
    · rw [hnone] at hstep
      cases hstep
    · rw [hsome, Option.some.injEq] at hstep
      subst hstep
      have hall := ih h2 hrest
      rwa [List.append_assoc] at hall

/-! ## The lookup -/

/-- `GetEntityOf` passes its integrity check. It finds the entity that a call has registered for the
player and the character, and the null entity where there is none. -/
theorem getEntityOf (h : Registered calls g) (playerId characterId : UInt32) :
    (∃ entity, ⟨playerId, characterId, entity⟩ ∈ calls ∧
      g.getEntityOf playerId characterId = some entity) ∨
    ((∀ entity, ⟨playerId, characterId, entity⟩ ∉ calls) ∧
      g.getEntityOf playerId characterId = some .nullEntity) := by
  rw [G_PlayerCharacters.getEntityOf]
  cases hentity : g.characterEntityMap.get characterId with
  | none =>
    refine Or.inr ⟨fun entity hmem => ?_, rfl⟩
    rw [h.characterEntityMap_eq_some.mpr ⟨_, hmem, rfl, rfl⟩] at hentity
    cases hentity
  | some entity =>
    obtain ⟨o, ho, rfl, rfl⟩ := h.characterEntityMap_eq_some.mp hentity
    have hcharacter := h.entityCharacterMap_eq_some.mpr ⟨o, ho, rfl, rfl, rfl⟩
    have hplayer := h.entityPlayerMap_eq_some.mpr ⟨o, ho, rfl, rfl, rfl⟩
    dsimp only
    rw [hcharacter, hplayer]
    dsimp only
    split_ifs with hne
    · refine Or.inr ⟨fun entity hmem => hne ?_, rfl⟩
      -- another call of the same character has registered the same entity, so the same player
      have heq := h.characterEntityMap_eq_some.mpr ⟨_, hmem, rfl, rfl⟩
      rw [hentity, Option.some.injEq] at heq
      subst heq
      have hplayer' := h.entityPlayerMap_eq_some.mpr ⟨_, hmem, rfl, rfl, rfl⟩
      rw [hplayer, Option.some.injEq, Prod.mk.injEq] at hplayer'
      exact hplayer'.2
    · rw [not_not] at hne
      subst hne
      exact Or.inl ⟨o.entity, ho, rfl⟩

/-- Whatever is found is what a call has registered. -/
theorem getEntityOf_eq_some_iff (h : Registered calls g) (playerId characterId : UInt32)
    (hentity : entity ≠ .nullEntity) : g.getEntityOf playerId characterId = some entity ↔
      ⟨playerId, characterId, entity⟩ ∈ calls := by
  obtain ⟨entity', hmem, heq⟩ | ⟨hnone, heq⟩ := h.getEntityOf playerId characterId
  · rw [heq, Option.some.injEq]
    refine ⟨fun h' => h' ▸ hmem, fun hmem' => ?_⟩
    -- the map of the characters has one entity for each
    have hfirst := h.characterEntityMap_eq_some.mpr ⟨_, hmem, rfl, rfl⟩
    have hsecond := h.characterEntityMap_eq_some.mpr ⟨_, hmem', rfl, rfl⟩
    exact Option.some.inj (hfirst.symm.trans hsecond)
  · rw [heq, Option.some.injEq]
    exact ⟨fun h' => absurd h'.symm hentity, fun hmem' => absurd hmem' (hnone entity)⟩

end Registered

/-! ## Runs -/

/-- Two calls that can both return. -/
def Distinct (o o' : Ownership) : Prop :=
  o.characterId ≠ o'.characterId ∧ o.entity.getId ≠ o'.entity.getId

theorem not_present_iff {calls : List Ownership} {o : Ownership} :
    ¬ Present calls o.characterId o.entity.getId ↔ ∀ o' ∈ calls, Distinct o' o := by
  simp only [Present, Distinct, not_exists, not_and, not_or, ne_eq]

/-- The calls that are left return if none of them names what another one or an earlier one names. -/
theorem Registered.run_of_pairwise {calls : List Ownership} {g : G_PlayerCharacters}
    (h : Registered calls g) {more : List Ownership} (hd : (calls ++ more).Pairwise Distinct) :
    ∃ g', Transition.run G_PlayerCharacters.step g more = some g' := by
  induction more generalizing calls g with
  | nil => exact ⟨g, rfl⟩
  | cons o more ih =>
    have hnew : ∀ o' ∈ calls, Distinct o' o := fun o' ho' =>
      (List.pairwise_append.mp hd).2.2 o' ho' o (List.mem_cons_self ..)
    obtain ⟨hp, -⟩ | ⟨-, g1, heq, h1⟩ := h.step o
    · exact absurd hp (not_present_iff.mpr hnew)
    · obtain ⟨g', hrest⟩ := ih h1 (by rwa [List.append_assoc])
      exact ⟨g', run_cons_eq_some.mpr ⟨g1, heq, hrest⟩⟩

/-- **The lookup finds what was registered.** Whatever sequence of calls has returned, `GetEntityOf`
passes its integrity check, returns an entity other than the null one exactly where a call has
registered it for the player and the character, and the null entity elsewhere. The three maps are in
step, and the next call aborts with all three unchanged where the character or the id of the entity is
present, and returns elsewhere. -/
theorem ownership_lookup (rawEntity : Memory (SparseBlock Entity))
    (rawPlayer rawCharacter : Memory (SparseBlock (UInt32 × UInt32)))
    (rawDense rawDense' rawDense'' : Nat → UInt32) (calls : List Ownership) (g : G_PlayerCharacters)
    (hrun : run step (fresh rawEntity rawPlayer rawCharacter rawDense rawDense' rawDense'') calls =
      some g) :
    (∀ playerId characterId, g.getEntityOf playerId characterId ≠ none) ∧
    (∀ playerId characterId entity, entity ≠ .nullEntity →
      (g.getEntityOf playerId characterId = some entity ↔
        ⟨playerId, characterId, entity⟩ ∈ calls)) ∧
    (∀ playerId characterId,
      (∀ entity, entity ≠ .nullEntity → ⟨playerId, characterId, entity⟩ ∉ calls) →
        g.getEntityOf playerId characterId = some .nullEntity) ∧
    InStep g ∧
    ∀ playerId characterId entity,
      ((g.characterEntityMap.get characterId).isSome ∨
        (g.entityCharacterMap.get entity.getId).isSome →
          g.addOwnership playerId characterId entity = .error g) ∧
      (¬ ((g.characterEntityMap.get characterId).isSome ∨
        (g.entityCharacterMap.get entity.getId).isSome) →
          ∃ g', g.addOwnership playerId characterId entity = .ok g') := by
  have h : Registered calls g :=
    (registered_fresh rawEntity rawPlayer rawCharacter rawDense rawDense' rawDense'').run hrun
  have hfinds : ∀ playerId characterId, ∃ entity, g.getEntityOf playerId characterId = some entity := by
    intro playerId characterId
    obtain ⟨entity, -, heq⟩ | ⟨-, heq⟩ := h.getEntityOf playerId characterId
    · exact ⟨entity, heq⟩
    · exact ⟨_, heq⟩
  refine ⟨fun playerId characterId hnone => ?_,
    fun playerId characterId entity => h.getEntityOf_eq_some_iff playerId characterId,
    fun playerId characterId hnot => ?_, h.inStep, fun playerId characterId entity => ?_⟩
  · obtain ⟨entity, heq⟩ := hfinds playerId characterId
    rw [hnone] at heq
    cases heq
  · obtain ⟨entity, heq⟩ := hfinds playerId characterId
    by_cases hnull : entity = .nullEntity
    · rw [heq, hnull]
    · exact absurd ((h.getEntityOf_eq_some_iff _ _ hnull).mp heq) (hnot entity hnull)
  · rw [← h.present_iff]
    refine ⟨h.addOwnership_of_present playerId, fun hp => ?_⟩
    obtain ⟨g', heq, -⟩ := h.addOwnership_of_not_present playerId hp
    exact ⟨g', heq⟩

instance : DecidableRel Distinct := fun _ _ => inferInstanceAs (Decidable (_ ∧ _))

/-- A new object over zeroed memory. -/
def zeroed : G_PlayerCharacters :=
  fresh (fun _ => ⟨0, false, none, none, 0, ⟨0⟩⟩) (fun _ => ⟨0, false, none, none, 0, (0, 0)⟩)
    (fun _ => ⟨0, false, none, none, 0, (0, 0)⟩) (fun _ => 0) (fun _ => 0) fun _ => 0

/-- Two players, one with two characters. -/
def threeCharacters : List Ownership :=
  [⟨7, 100, .ofIdVersion 3 1⟩, ⟨7, 101, .ofIdVersion 4 1⟩, ⟨8, 102, .ofIdVersion 0 2⟩]

theorem ownership_lookup_threeCharacters : ∃ g, run step zeroed threeCharacters = some g ∧
    g.getEntityOf 7 101 = some (.ofIdVersion 4 1) ∧ g.getEntityOf 8 101 = some .nullEntity := by
  obtain ⟨g, hrun⟩ : ∃ g, run step zeroed threeCharacters = some g :=
    (registered_fresh ..).run_of_pairwise (by decide)
  obtain ⟨-, hfound, hnull, -⟩ := ownership_lookup _ _ _ _ _ _ threeCharacters g hrun
  refine ⟨g, hrun, (hfound 7 101 _ (by decide)).mpr (by decide), hnull 8 101 fun entity _ => ?_⟩
  simp [threeCharacters]

end RatkiniaServer.G_PlayerCharacters
