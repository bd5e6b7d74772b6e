import RatkiniaServer.GlobalObject.GPossession

/-!
# `G_PlayerCharacters`

Which entity stands for which character of which player. `AddOwnership` enters each character once,
into three `SparseList`s one after the other; nothing is ever taken out. A failed check stops the
process, so a call either returns or aborts with what the three lists hold at that moment.
-/

namespace RatkiniaServer

open MemoryPool

/-- `G_PlayerCharacters`; the elements of `entityPlayerMap` are a version and a player, those of
`entityCharacterMap` a version and a character. The pages are the default ones, as in
`G_Possession`. -/
structure G_PlayerCharacters where
  characterEntityMap : SparseList G_Possession.entitySizes Entity
  entityPlayerMap : SparseList G_Possession.versionContextSizes (UInt32 × UInt32)
  entityCharacterMap : SparseList G_Possession.versionContextSizes (UInt32 × UInt32)

namespace G_PlayerCharacters

/-- A new object, with the content of the memory of the pages to come. -/
def fresh (rawEntity : Memory (SparseBlock Entity))
    (rawPlayer rawCharacter : Memory (SparseBlock (UInt32 × UInt32)))
    (rawDense rawDense' rawDense'' : Nat → UInt32) : G_PlayerCharacters :=
  ⟨.empty _ rawEntity rawDense, .empty _ rawPlayer rawDense', .empty _ rawCharacter rawDense''⟩

/-- `AddOwnership`: the object afterwards, or at the failed check as an error. -/
def addOwnership (g : G_PlayerCharacters) (playerId characterId : UInt32) (entity : Entity) :
    Except G_PlayerCharacters G_PlayerCharacters :=
  let integrityError := (g.characterEntityMap.get characterId).isSome ||
    (g.entityPlayerMap.get entity.getId).isSome ||
    (g.entityCharacterMap.get entity.getId).isSome
  if integrityError then .error g
  else
    match g.characterEntityMap.emplaceAt characterId entity with
    | none => .error g
    | some characterEntityMap =>
      let g := { g with characterEntityMap := characterEntityMap }
      match g.entityPlayerMap.emplaceAt entity.getId (entity.getVersion, playerId) with
      | none => .error g
      | some entityPlayerMap =>
        let g := { g with entityPlayerMap := entityPlayerMap }
        match g.entityCharacterMap.emplaceAt entity.getId (entity.getVersion, characterId) with
        | none => .error g
        | some entityCharacterMap => .ok { g with entityCharacterMap := entityCharacterMap }

/-- `GetEntityOf`; `none` is the failed integrity check. -/
def getEntityOf (g : G_PlayerCharacters) (playerId characterId : UInt32) : Option Entity :=
  match g.characterEntityMap.get characterId with
  | none => some .nullEntity
  | some entity =>
    match g.entityCharacterMap.get entity.getId, g.entityPlayerMap.get entity.getId with
    | some _, some entityPlayer =>
      if entityPlayer.2 ≠ playerId then some .nullEntity else some entity
    | _, _ => none

/-- The arguments of a call of `AddOwnership`. -/
structure Ownership where
  playerId : UInt32
  characterId : UInt32
  entity : Entity
  deriving DecidableEq

/-- A call that returns. -/
def step (g : G_PlayerCharacters) (o : Ownership) : Option G_PlayerCharacters :=
  (g.addOwnership o.playerId o.characterId o.entity).toOption

end G_PlayerCharacters

end RatkiniaServer
