/-!
# Identities

A distributed operation is known by its future id, and each of its requests by
that id together with a mini id.
-/

namespace Enlistment

/-- A cluster node. -/
abbrev NodeId := UInt32

/-- One request of a distributed operation. -/
abbrev MiniId := Int32

/-- A 128-bit identifier. -/
abbrev Uuid := BitVec 128

namespace Uuid

/-- The lower-case hexadecimal digits of the low `4 * count` bits. -/
def hexDigits (id : Uuid) (count : Nat) : String :=
  String.ofList ((List.range count).reverse.map fun i =>
    Nat.digitChar ((id.toNat >>> (4 * i)) % 16))

/-- The wording of an identifier: five hyphenated groups of digits. -/
def render (id : Uuid) : String :=
  String.intercalate "-"
    [hexDigits (id >>> 96) 8, hexDigits (id >>> 80) 4, hexDigits (id >>> 64) 4,
      hexDigits (id >>> 48) 4, hexDigits id 12]

end Uuid

/-- A distributed operation. -/
structure FutureId where
  id : Uuid
  deriving DecidableEq, Repr, Inhabited

/-- The wording of a future id. -/
def FutureId.render (f : FutureId) : String := f.id.render

end Enlistment
