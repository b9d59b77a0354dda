/-!
# Versions

Three kinds of version order the system: topology versions order the mappings of
partitions to nodes, lock versions order transactions, and entry versions order
the values of a key. Each is compared component by component.
-/

namespace Enlistment

/-- Version of a mapping from partitions to nodes. A change of membership raises
`major`, a change of the assignment alone raises `minor`. -/
structure TopologyVersion where
  major : Int64
  minor : Int32
  deriving DecidableEq, Repr, Inhabited

namespace TopologyVersion

/-- The version of a request that was mapped on no topology. -/
def unmapped : TopologyVersion := ⟨-1, 0⟩

/-- The version after a change of membership. -/
def nextMajor (v : TopologyVersion) : TopologyVersion := ⟨v.major + 1, 0⟩

/-- The version after a change of the assignment. -/
def nextMinor (v : TopologyVersion) : TopologyVersion := ⟨v.major, v.minor + 1⟩

/-- Order by major and then by minor version. -/
def compare (v w : TopologyVersion) : Ordering :=
  (Ord.compare v.major w.major).then (Ord.compare v.minor w.minor)

instance : Ord TopologyVersion := ⟨compare⟩

instance : LT TopologyVersion := ltOfOrd

instance : LE TopologyVersion := leOfOrd

/-- The wording of a topology version. -/
def render (v : TopologyVersion) : String :=
  toString v.major ++ "." ++ toString v.minor

end TopologyVersion

/-- Token of a transaction; row locks are held under it. -/
structure LockVersion where
  topologyOrder : UInt32
  order : UInt64
  nodeOrder : UInt32
  deriving DecidableEq, Repr, Inhabited

namespace LockVersion

/-- Order by topology, then by counter, then by issuing node. -/
def compare (v w : LockVersion) : Ordering :=
  (Ord.compare v.topologyOrder w.topologyOrder).then
    ((Ord.compare v.order w.order).then (Ord.compare v.nodeOrder w.nodeOrder))

instance : Ord LockVersion := ⟨compare⟩

instance : LT LockVersion := ltOfOrd

instance : LE LockVersion := leOfOrd

/-- The wording of a lock version. -/
def render (v : LockVersion) : String :=
  "[topVer=" ++ toString v.topologyOrder ++ ", order=" ++ toString v.order ++
    ", nodeOrder=" ++ toString v.nodeOrder ++ "]"

end LockVersion

/-- Version of one stored value, taken from the transaction that wrote it. -/
structure EntryVersion where
  coordinator : Int64
  counter : Int64
  deriving DecidableEq, Repr, Inhabited

namespace EntryVersion

/-- Order by coordinator and then by counter. -/
def compare (v w : EntryVersion) : Ordering :=
  (Ord.compare v.coordinator w.coordinator).then (Ord.compare v.counter w.counter)

instance : Ord EntryVersion := ⟨compare⟩

instance : LT EntryVersion := ltOfOrd

instance : LE EntryVersion := leOfOrd

end EntryVersion

/-- What a transaction can see: everything of older coordinators, and of its own
coordinator what was written by itself or by a transaction that had finished when
the snapshot was taken. -/
structure Snapshot where
  coordinator : Int64
  counter : Int64
  opCounter : Int32
  cleanup : Int64
  active : List Int64
  deriving DecidableEq, Repr, Inhabited

namespace Snapshot

/-- The version of the transaction's own writes. -/
def version (s : Snapshot) : EntryVersion := ⟨s.coordinator, s.counter⟩

/-- Whether the snapshot sees a version. -/
def sees (s : Snapshot) (v : EntryVersion) : Bool :=
  match Ord.compare v.coordinator s.coordinator with
  | .lt => true
  | .gt => false
  | .eq => v.counter = s.counter || (v.counter < s.counter && !s.active.contains v.counter)

end Snapshot

end Enlistment
