import RatkiniaServer.MemoryPool.IndexedUnmanagedList
import Mathlib.Data.UInt

/-!
# `Entity` and `EntityManager`

An `Entity` packs a 12-bit version and a 20-bit slot index into 32 bits. `EntityManager` issues
entities from an `IndexedUnmanagedList` whose payload is the version counter of the slot.
-/

namespace RatkiniaServer

open MemoryPool

/-- `Entity`: `data_` holds the version in the upper 12 bits and the id in the lower 20. -/
structure Entity where
  data : UInt32
  deriving DecidableEq

namespace Entity

/-- `VersionBitSize`. -/
def versionBitSize : UInt32 := 12

/-- `IdBitSize`. -/
def idBitSize : UInt32 := 32 - versionBitSize

/-- `NullId`. -/
def nullId : UInt32 := (1 <<< idBitSize) - 1

/-- The constructor `Entity{ id, version }`. -/
def ofIdVersion (id version : UInt32) : Entity :=
  ⟨(version <<< idBitSize) ||| (id &&& ((1 <<< idBitSize) - 1))⟩

/-- `NullEntity`. -/
def nullEntity : Entity := ⟨0xFFFFFFFF⟩

/-- `GetId`. -/
def getId (e : Entity) : UInt32 := e.data &&& ((1 <<< idBitSize) - 1)

/-- `GetVersion`. -/
def getVersion (e : Entity) : UInt32 := e.data >>> idBitSize

end Entity

/-- The default page size of the list with the four-byte version counter as payload. -/
def entityLayout : Layout := ⟨16384, 4, by decide⟩

/-- `EntityManager`. -/
structure EntityManager where
  list : IndexedUnmanagedList entityLayout UInt32

namespace EntityManager

/-- A fresh manager; `VersionBlockInitializer` zeroes the version of every new slot. -/
def fresh (raw : Memory UInt32) : EntityManager :=
  ⟨IndexedUnmanagedList.empty entityLayout (fun _ _ => 0) raw⟩

/-- `GetIncrementVersion`. -/
def getIncrementVersion (version : UInt32) : UInt32 :=
  (version + 1) &&& (((1 : UInt32) <<< Entity.versionBitSize) - 1)

/-- `Create`. -/
def create (m : EntityManager) : Option (EntityManager × Entity) :=
  m.list.create.map fun (l, index, n) =>
    let version := getIncrementVersion (l.mem n).data
    (⟨l.setData n version⟩, Entity.ofIdVersion index version)

/-- `CreateWithSpecificId`. -/
def createWithSpecificId (m : EntityManager) (entityId : UInt32) : Option (EntityManager × Entity) :=
  if entityId = Entity.nullId then some (m, Entity.nullEntity)
  else (m.list.createAt entityId).map fun
    | (l, none) => (⟨l⟩, Entity.nullEntity)
    | (l, some n) =>
      let version := getIncrementVersion (l.mem n).data
      (⟨l.setData n version⟩, Entity.ofIdVersion entityId version)

/-- `Destroy`. -/
def destroy (m : EntityManager) (e : Entity) : EntityManager :=
  match m.list.get e.getId with
  | none => m
  | some n => if (m.list.mem n).data ≠ e.getVersion then m else ⟨m.list.erase e.getId⟩

/-- `Get`. -/
def get (m : EntityManager) (entityId : UInt32) : Entity :=
  match m.list.get entityId with
  | some n => Entity.ofIdVersion entityId (m.list.mem n).data
  | none => Entity.nullEntity

/-- The iteration from `begin()` to `end()`. -/
def iterate (m : EntityManager) (fuel : Nat) : Option (List Entity) :=
  (m.list.iterate fuel).map fun es => es.map fun (entityId, version) =>
    Entity.ofIdVersion entityId version

/-! ## Runs -/

/-- The mutating operations. -/
inductive Op
  | create
  | createWithSpecificId (entityId : UInt32)
  | destroy (e : Entity)

/-- A manager together with the history that its callers see: the handles issued and not destroyed
since, latest first. -/
structure World where
  manager : EntityManager
  live : List Entity

/-- Record an issued handle; a null handle stands for a refused request. -/
def World.issue (w : World) (r : EntityManager × Entity) : World :=
  ⟨r.1, if r.2 = Entity.nullEntity then w.live else r.2 :: w.live⟩

/-- One operation as a step. -/
def step (w : World) : Op → Option World
  | .create => w.manager.create.map w.issue
  | .createWithSpecificId entityId => (w.manager.createWithSpecificId entityId).map w.issue
  | .destroy e => some ⟨w.manager.destroy e, w.live.erase e⟩

/-- A manager together with all the handles it has issued, latest first, each with the index of the
slot it was issued for. -/
structure History where
  manager : EntityManager
  issued : List (UInt32 × Entity)

/-- One operation as a step of the history; a null handle stands for a refused request. -/
def History.step (s : History) : Op → Option History
  | .create => s.manager.create.bind fun (m, e) =>
      s.manager.list.create.map fun (_, index, _) => ⟨m, (index, e) :: s.issued⟩
  | .createWithSpecificId entityId => (s.manager.createWithSpecificId entityId).map fun (m, e) =>
      ⟨m, if e = Entity.nullEntity then s.issued else (entityId, e) :: s.issued⟩
  | .destroy e => some ⟨s.manager.destroy e, s.issued⟩

/-- How often the slot `i` has been issued. -/
def issues (issued : List (UInt32 × Entity)) (i : UInt32) : Nat := issued.countP fun p => p.1 = i

end EntityManager

end RatkiniaServer
