import Enlistment.CacheObject

/-!
# Filters

A filter decides for each row, from its key and the current value, whether the row
is applied. There are built-in filters and filters of a user class, which reject
every row until the class is resolved.
-/

namespace Enlistment

/-- The kinds of filter. -/
inductive FilterKind where
  /-- The entry must exist. -/
  | hasValue
  /-- The entry must not exist. -/
  | noValue
  /-- The entry must exist and equal the operand. -/
  | containsValue
  /-- A user class decides. -/
  | custom
  deriving DecidableEq, Repr

namespace FilterKind

/-- All kinds in the order of their ordinals. -/
def all : List FilterKind := [hasValue, noValue, containsValue, custom]

/-- The position of a kind. -/
def ordinal : FilterKind → Int8
  | hasValue => 0
  | noValue => 1
  | containsValue => 2
  | custom => 3

/-- The kind at a position, the first one outside of the list. -/
def ofOrdinal (n : Int8) : FilterKind :=
  all.find? (fun kind => kind.ordinal == n) |>.getD hasValue

/-- The name of a kind. -/
def name : FilterKind → String
  | hasValue => "HasValue"
  | noValue => "NoValue"
  | containsValue => "ContainsValue"
  | custom => "Custom"

end FilterKind

/-- A condition on rows. -/
structure Filter (σ : Type) where
  kind : FilterKind := .hasValue
  operand : Option ValueObject := none
  className : Option String := none
  /-- The predicate, once its class is resolved. -/
  resolved : Option (RowPredicate σ) := none

namespace Filter

variable {σ : Type}

/-- The filter of existing entries. -/
def hasValue : Filter σ := {}

/-- The filter of missing entries. -/
def noValue : Filter σ := { kind := .noValue }

/-- The filter of entries with a given value. -/
def containsValue (v : Value) : Filter σ :=
  { kind := .containsValue, operand := some (.ofValue v) }

/-- The filter of a user class. -/
def custom (className : String) : Filter σ := { kind := .custom, className := some className }

/-- Filters are equal if kind, operand and class are. -/
def same (a b : Filter σ) : Bool :=
  a.kind == b.kind && a.operand == b.operand && a.className == b.className

instance : BEq (Filter σ) := ⟨same⟩

/-- The value of the operand, if it is known. -/
def operandValue (f : Filter σ) : Option Value := f.operand.bind ValueObject.value

/-- Whether the receiver may need user classes to evaluate the filter. -/
def requiresDeployment (f : Filter σ) : Bool :=
  f.kind == .custom || f.operandValue.any Value.isObject

/-- Whether a row may be applied. -/
def evaluate (f : Filter σ) (state : σ) (key : Value) (current : Option Value) : Bool × σ :=
  match f.kind with
  | .hasValue => (current.isSome, state)
  | .noValue => (current.isNone, state)
  | .containsValue => (current.isSome && current == f.operandValue, state)
  | .custom =>
    match f.resolved with
    | none => (false, state)
    | some predicate => predicate.apply state key current

/-- Fills in the octets of the operand. -/
def marshal (f : Filter σ) : Filter σ :=
  { f with operand := f.operand.map ValueObject.marshal }

/-- Fills in the operand and then resolves the class. -/
def unmarshal (keepBinary : Bool) (loader : ClassLoader σ) (f : Filter σ) :
    Except UnmarshalError Unit × Filter σ :=
  let operand :=
    match f.operand with
    | none => (Except.ok (), none)
    | some o => let r := o.unmarshal keepBinary loader.hasClass; (r.1, some r.2)
  let f := { f with operand := operand.2 }
  match operand.1, f.className with
  | .error e, _ => (.error e, f)
  | .ok (), none => (.ok (), f)
  | .ok (), some name =>
    match loader.predicate name with
    | none => (.error (.classNotFound name), f)
    | some predicate => (.ok (), { f with resolved := some predicate })

end Filter

end Enlistment
