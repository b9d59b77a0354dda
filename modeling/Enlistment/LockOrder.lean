import Enlistment.Version

/-!
# Lock order

Each node issues lock versions from a counter of its own, so versions of one node
rise as long as its topologies do.
-/

namespace Enlistment

/-- The source of a node's lock versions. -/
structure LockOrder where
  nodeOrder : UInt32
  /-- The counter of the last version. -/
  order : UInt64
  deriving DecidableEq, Repr

namespace LockOrder

/-- The topology part of a lock version: the major version if it fits, else zero. -/
def topologyOrder (v : TopologyVersion) : UInt32 :=
  if 0 ≤ v.major ∧ v.major.toInt < UInt32.size then UInt32.ofNat v.major.toInt.toNat else 0

/-- The next lock version on a topology. -/
def next (o : LockOrder) (topology : TopologyVersion) : LockVersion × LockOrder :=
  (⟨topologyOrder topology, o.order + 1, o.nodeOrder⟩, { o with order := o.order + 1 })

end LockOrder

end Enlistment
