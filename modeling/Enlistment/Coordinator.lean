import Enlistment.Version

/-!
# Snapshot coordinator

The coordinator numbers transactions and keeps track of those that have not
finished. A snapshot lists the transactions unfinished when it was taken.
-/

namespace Enlistment

/-- The source of snapshots. -/
structure Coordinator where
  version : Int64
  /-- The number of the last transaction. -/
  counter : Int64 := 0
  /-- Unfinished transactions in ascending order. -/
  active : List Int64 := []
  deriving DecidableEq, Repr

namespace Coordinator

/-- Adds a transaction to an ascending list unless it is there. -/
def insertActive (n : Int64) : List Int64 → List Int64
  | [] => [n]
  | m :: rest =>
    if n < m then n :: m :: rest
    else if n = m then m :: rest
    else m :: insertActive n rest

/-- The snapshot of a new transaction, which is unfinished from then on. -/
def requestSnapshot (c : Coordinator) : Snapshot × Coordinator :=
  let counter := c.counter + 1
  let cleanup :=
    match c.active with
    | [] => counter - 1
    | oldest :: _ => oldest - 1
  ({ coordinator := c.version, counter, opCounter := 0, cleanup, active := c.active },
    { c with counter, active := insertActive counter c.active })

/-- Finishes a transaction and tells whether it was unfinished. -/
def finish (c : Coordinator) (counter : Int64) : Bool × Coordinator :=
  (c.active.contains counter, { c with active := c.active.erase counter })

end Coordinator

end Enlistment
