import RatkiniaServer.EntityManager
import RatkiniaServer.MemoryPool.SparseList

/-!
# `G_Possession`

Which entity the player of a context possesses. `contextEntityMap_` and `entityContextMap_` are two
`SparseList`s, which each operation updates one after the other. `none` as the result of an operation
is a failed check of one of them.
-/

namespace RatkiniaServer

open MemoryPool

namespace G_Possession

/-- The default pages for elements of type `Entity`. -/
def entitySizes : SparseListSizes := ⟨65536, 4, 16384, by decide, by decide⟩

/-- The default pages for elements of type `std::pair<uint32_t, uint32_t>`. -/
def versionContextSizes : SparseListSizes := ⟨65536, 8, 16384, by decide, by decide⟩

/-- `PosessionResult`. -/
inductive PosessionResult
  | success
  | duplicateContext
  | entityAlreadyPossessed
  deriving DecidableEq

end G_Possession

/-- `G_Possession`; the elements of `entityContextMap_` are a version and a context. -/
structure G_Possession where
  contextEntityMap : SparseList G_Possession.entitySizes Entity
  entityContextMap : SparseList G_Possession.versionContextSizes (UInt32 × UInt32)

namespace G_Possession

/-- A new object, with the content of the memory of the pages to come. -/
def fresh (rawEntity : Memory (SparseBlock Entity)) (rawContext : Memory (SparseBlock (UInt32 × UInt32)))
    (rawDense rawDense' : Nat → UInt32) : G_Possession :=
  ⟨.empty _ rawEntity rawDense, .empty _ rawContext rawDense'⟩

/-- `TryPossess`. -/
def tryPossess (g : G_Possession) (context : UInt32) (entity : Entity) :
    Option (G_Possession × PosessionResult) :=
  if (g.contextEntityMap.get context).isSome then some (g, .duplicateContext)
  else if (g.entityContextMap.get entity.getId).isSome then some (g, .entityAlreadyPossessed)
  else
    (g.contextEntityMap.emplaceAt context entity).bind fun contextEntityMap =>
      (g.entityContextMap.emplaceAt entity.getId (entity.getVersion, context)).map
        fun entityContextMap => (⟨contextEntityMap, entityContextMap⟩, .success)

/-- `UnpossessByContext`. -/
def unpossessByContext (g : G_Possession) (context : UInt32) : Option G_Possession :=
  match g.contextEntityMap.get context with
  | none => some g
  | some entity =>
    (g.entityContextMap.eraseBySparseIndex entity.getId).bind fun entityContextMap =>
      (g.contextEntityMap.eraseBySparseIndex context).map
        fun contextEntityMap => ⟨contextEntityMap, entityContextMap⟩

/-- `UnpossessByEntity`. -/
def unpossessByEntity (g : G_Possession) (entity : Entity) : Option G_Possession :=
  match g.entityContextMap.get entity.getId with
  | none => some g
  | some versionContext =>
    if versionContext.1 ≠ entity.getVersion then some g
    else
      (g.contextEntityMap.eraseBySparseIndex versionContext.2).bind fun contextEntityMap =>
        (g.entityContextMap.eraseBySparseIndex entity.getId).map
          fun entityContextMap => ⟨contextEntityMap, entityContextMap⟩

/-- `S_PlayerCharacters_UnpossessOnDisconnected`, with the contexts of the `Event_SessionErased`. -/
def unpossessOnDisconnected (g : G_Possession) (contexts : List UInt32) : Option G_Possession :=
  contexts.foldlM unpossessByContext g

/-- The calls. -/
inductive Op
  | tryPossess (context : UInt32) (entity : Entity)
  | unpossessByContext (context : UInt32)
  | unpossessByEntity (entity : Entity)
  | unpossessOnDisconnected (contexts : List UInt32)

/-- A call. -/
def step (g : G_Possession) : Op → Option G_Possession
  | .tryPossess context entity => (g.tryPossess context entity).map Prod.fst
  | .unpossessByContext context => g.unpossessByContext context
  | .unpossessByEntity entity => g.unpossessByEntity entity
  | .unpossessOnDisconnected contexts => g.unpossessOnDisconnected contexts

end G_Possession

end RatkiniaServer
