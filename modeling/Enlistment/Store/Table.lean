import Enlistment.Bytes

/-!
# Tables

A table assigns values to some byte strings. Its entries are in ascending order of
their keys, so equal assignments are equal tables.
-/

namespace Enlistment

/-- A finite assignment of values to byte strings. -/
abbrev Table (V : Type) := List (Bytes × V)

namespace Table

variable {V : Type}

/-- The value of a key. -/
def get? : Table V → Bytes → Option V
  | [], _ => none
  | (k, v) :: rest, key => if k = key then some v else get? rest key

/-- The table with another value of a key. -/
def set (key : Bytes) (value : V) : Table V → Table V
  | [] => [(key, value)]
  | (k, v) :: rest =>
    if k = key then (key, value) :: rest
    else if key < k then (key, value) :: (k, v) :: rest
    else (k, v) :: set key value rest

/-- Keeps and changes the values for which `f` gives one. -/
def filterMapValues (f : V → Option V) (t : Table V) : Table V :=
  t.filterMap fun (k, v) => (f v).map fun v => (k, v)

/-- A key that was set has its value, and the others keep theirs. -/
@[simp]
theorem get?_set (t : Table V) (key key' : Bytes) (value : V) :
    (set key value t).get? key' = if key = key' then some value else t.get? key' := by
  induction t with
  | nil => rfl
  | cons entry rest ih =>
    obtain ⟨k, v⟩ := entry
    unfold set
    split
    · next h => subst h; by_cases hk : k = key' <;> simp [get?, hk]
    · next h =>
      split
      · rfl
      · by_cases hk : k = key'
        · subst hk; simp [get?, Ne.symm h]
        · simp [get?, hk, ih]

end Table

end Enlistment
