import Enlistment.Store.Table
import Enlistment.Version

/-!
# Multi-version store

The store keeps the versions of each key, oldest first, and the locks on rows. A
version without a value is a tombstone.
-/

namespace Enlistment

/-- One version of the value of a key. -/
structure VersionedValue where
  version : EntryVersion
  value : Option Bytes
  deriving DecidableEq, Repr

/-- A change of a store. -/
inductive StoreOp where
  | put (key : Bytes) (version : EntryVersion) (value : Option Bytes)
  | lock (key : Bytes) (owner : LockVersion)
  /-- Releases all locks of an owner. -/
  | unlock (owner : LockVersion)
  /-- Drops versions that are superseded at or below the horizon. -/
  | vacuum (horizon : EntryVersion)
  deriving DecidableEq, Repr

/-- The rows of a node. -/
structure Store where
  data : Table (List VersionedValue) := []
  locks : Table LockVersion := []
  deriving DecidableEq, Repr

namespace Store

/-- Adds a version in its place or replaces the value of that version. -/
def putVersion (version : EntryVersion) (value : Option Bytes) :
    List VersionedValue → List VersionedValue
  | [] => [⟨version, value⟩]
  | v :: rest =>
    match compare v.version version with
    | .lt => v :: putVersion version value rest
    | .eq => ⟨version, value⟩ :: rest
    | .gt => ⟨version, value⟩ :: v :: rest

/-- Drops the versions that are followed by another one at or below the horizon. -/
def dropSuperseded (horizon : EntryVersion) : List VersionedValue → List VersionedValue
  | v :: w :: rest =>
    if (compare w.version horizon).isLE then dropSuperseded horizon (w :: rest)
    else v :: w :: rest
  | versions => versions

/-- The versions of a key after a vacuum, or none if a lone tombstone would be left. -/
def vacuumVersions (horizon : EntryVersion) (versions : List VersionedValue) :
    Option (List VersionedValue) :=
  match dropSuperseded horizon versions with
  | [⟨_, none⟩] => none
  | kept => some kept

/-- The versions of a key, oldest first. -/
def versions (s : Store) (key : Bytes) : List VersionedValue := (s.data.get? key).getD []

/-- The owner of the lock on a key. -/
def lockOwner (s : Store) (key : Bytes) : Option LockVersion := s.locks.get? key

/-- The number of locked keys. -/
def lockedKeys (s : Store) : Nat := s.locks.length

/-- Whether the newest of some versions has a value. -/
def isLive (versions : List VersionedValue) : Bool :=
  versions.getLast?.any fun v => v.value.isSome

/-- The number of keys whose newest version has a value. -/
def length (s : Store) : Nat := (s.data.filter fun entry => isLive entry.2).length

/-- The number of versions at or below a horizon. -/
def countBelow (horizon : EntryVersion) (versions : List VersionedValue) : Nat :=
  versions.countP fun v => (compare v.version horizon).isLE

/-- Whether a change is taken to leave the store as it is. -/
def isNoop (s : Store) : StoreOp → Bool
  | .put key version value => (s.versions key).getLast? == some ⟨version, value⟩
  | .lock key owner => s.lockOwner key == some owner
  | .unlock owner => !s.locks.any fun entry => entry.2 == owner
  | .vacuum horizon => s.data.all fun entry => countBelow horizon entry.2 ≤ 1

/-- Makes a change. -/
def execute (s : Store) : StoreOp → Store
  | .put key version value =>
    { s with data := s.data.set key (putVersion version value (s.versions key)) }
  | .lock key owner => { s with locks := s.locks.set key owner }
  | .unlock owner => { s with locks := s.locks.filter fun entry => entry.2 != owner }
  | .vacuum horizon => { s with data := s.data.filterMapValues (vacuumVersions horizon) }

/-- Makes a change unless it is taken to have no effect. -/
def apply (s : Store) (op : StoreOp) : Store := if s.isNoop op then s else s.execute op

/-- The newest version a snapshot sees, or the newest one without a snapshot. -/
def visibleVersion (snapshot : Option Snapshot) (versions : List VersionedValue) :
    Option VersionedValue :=
  match snapshot with
  | none => versions.getLast?
  | some s => versions.reverse.find? fun v => s.sees v.version

/-- The value of a key that a snapshot sees. -/
def visible (s : Store) (key : Bytes) (snapshot : Option Snapshot) : Option Bytes :=
  (visibleVersion snapshot (s.versions key)).bind VersionedValue.value

end Store

end Enlistment
