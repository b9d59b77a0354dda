/-!
# Operations on rows

An enlistment applies one operation to all of its rows. On the wire an operation
is its position in the list of all operations, and -1 stands for none.
-/

namespace Enlistment

/-- What an enlistment does to its rows. -/
inductive Operation where
  /-- Creates the entry. A row whose entry exists fails. -/
  | insert
  /-- Replaces the value of an existing entry. -/
  | update
  /-- Creates the entry or replaces its value. -/
  | upsert
  /-- Removes the entry. -/
  | delete
  /-- Locks the row and leaves its value alone. -/
  | lock
  /-- Runs an entry processor on the entry. -/
  | invoke
  deriving DecidableEq, Repr

namespace Operation

/-- All operations in the order of their ordinals. -/
def all : List Operation := [insert, update, upsert, delete, lock, invoke]

/-- The position of an operation. -/
def ordinal : Operation → Int8
  | insert => 0
  | update => 1
  | upsert => 2
  | delete => 3
  | lock => 4
  | invoke => 5

/-- The operation at a position. -/
def ofOrdinal? (n : Int8) : Option Operation :=
  if n < 0 then none else all[n.toInt.toNat]?

/-- Whether rows of this operation carry keys alone. -/
def isDeleteOrLock : Operation → Bool
  | delete | lock => true
  | _ => false

/-- Whether rows of this operation carry invocations in the place of values. -/
def isInvoke : Operation → Bool
  | invoke => true
  | _ => false

/-- The name of an operation. -/
def name : Operation → String
  | insert => "Insert"
  | update => "Update"
  | upsert => "Upsert"
  | delete => "Delete"
  | lock => "Lock"
  | invoke => "Invoke"

end Operation

end Enlistment
