import Enlistment.Bytes

/-!
# JSON values

Configurations and stored data have a form in JSON. A structure is an object with
its fields, or an array of them in order, and a choice is an object with the name
of the alternative as its only key.
-/

namespace Enlistment

/-- A JSON value. Numbers that are not written as integers have no use here and are
not told apart. -/
inductive Json where
  | null
  | bool (b : Bool)
  | int (n : Int)
  | fraction
  | text (s : String)
  | array (items : List Json)
  | object (fields : List (String × Json))
  deriving Inhabited

/-- A type with a form in JSON. -/
class JsonForm (A : Type) where
  toJson : A → Json
  ofJson? : Json → Option A

export JsonForm (toJson ofJson?)

namespace Json

/-- An integer in a range. -/
def intIn? (low high : Int) : Json → Option Int
  | int n => if low ≤ n ∧ n ≤ high then some n else none
  | _ => none

/-- A natural number below a bound. -/
def natBelow? (bound : Nat) (j : Json) : Option Nat :=
  (j.intIn? 0 (bound - 1)).map Int.toNat

/-- The fields of a structure, by name. An array has to hold all of them unless they
have defaults. -/
def fields? (names : List String) (withDefaults : Bool) : Json → Option (List (String × Json))
  | object fields => some fields
  | array items =>
    if items.length = names.length ∨ (withDefaults ∧ items.length < names.length) then
      some (names.zip items)
    else none
  | _ => none

/-- The alternative of a choice with its contents, which may be missing. -/
def choice? : Json → Option (String × Option Json)
  | text name => some (name, none)
  | object [(name, contents)] => some (name, some contents)
  | _ => none

/-- A field that has to be there. -/
def required? {A : Type} [JsonForm A] (fields : List (String × Json)) (name : String) :
    Option A :=
  (fields.lookup name).bind ofJson?

/-- A field that has a default. -/
def defaulted? {A : Type} [JsonForm A] (fields : List (String × Json)) (name : String)
    (default : A) : Option A :=
  match fields.lookup name with
  | none => some default
  | some j => ofJson? j

end Json

instance : JsonForm Bool where
  toJson := .bool
  ofJson?
    | .bool b => some b
    | _ => none

instance : JsonForm String where
  toJson := .text
  ofJson?
    | .text s => some s
    | _ => none

instance : JsonForm UInt8 where
  toJson n := .int n.toNat
  ofJson? j := (j.natBelow? UInt8.size).map UInt8.ofNat

instance : JsonForm UInt32 where
  toJson n := .int n.toNat
  ofJson? j := (j.natBelow? UInt32.size).map UInt32.ofNat

instance : JsonForm UInt64 where
  toJson n := .int n.toNat
  ofJson? j := (j.natBelow? UInt64.size).map UInt64.ofNat

instance : JsonForm Int32 where
  toJson n := .int n.toInt
  ofJson? j := (j.intIn? Int32.minValue.toInt Int32.maxValue.toInt).map Int32.ofInt

instance : JsonForm Int64 where
  toJson n := .int n.toInt
  ofJson? j := (j.intIn? Int64.minValue.toInt Int64.maxValue.toInt).map Int64.ofInt

instance {A : Type} [JsonForm A] : JsonForm (List A) where
  toJson items := .array (items.map toJson)
  ofJson?
    | .array items => items.mapM ofJson?
    | _ => none

instance {A : Type} [JsonForm A] : JsonForm (Option A) where
  toJson
    | none => .null
    | some a => toJson a
  ofJson?
    | .null => some none
    | j => (ofJson? j).map some

/-- A field that is absent if it is missing or null. -/
def Json.optional? {A : Type} [JsonForm A] (fields : List (String × Json)) (name : String) :
    Option (Option A) :=
  Json.defaulted? fields name none

end Enlistment
