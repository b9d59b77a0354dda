import Enlistment.Error
import Enlistment.Value

/-!
# User code

Entry processors and row predicates are supplied by users and named by messages.
They may read and change a state `σ` that they share with the node running them,
for instance the node's view of the topology. A class loader resolves their names.
-/

namespace Enlistment

/-- The entry an entry processor works on. -/
structure MutableEntry where
  key : Value
  value : Option Value
  modified : Bool
  deriving DecidableEq

namespace MutableEntry

/-- An entry that has not been modified. -/
def ofCurrent (key : Value) (value : Option Value) : MutableEntry := ⟨key, value, false⟩

/-- The entry with a new value. -/
def setValue (e : MutableEntry) (v : Value) : MutableEntry :=
  { e with value := some v, modified := true }

/-- The entry without a value. -/
def remove (e : MutableEntry) : MutableEntry :=
  { e with value := none, modified := true }

end MutableEntry

/-- What an entry processor leaves behind. -/
structure ProcessorRun (σ : Type) where
  result : Except CauseChain (Option Value)
  entry : MutableEntry
  state : σ

/-- User code run on one entry with arguments. -/
structure EntryProcessor (σ : Type) where
  process : σ → MutableEntry → (args : List Value) → ProcessorRun σ

/-- User code that decides, from the key and the current value, whether a row may
be applied. -/
structure RowPredicate (σ : Type) where
  apply : σ → (key : Value) → (current : Option Value) → Bool × σ

/-- Resolves the names of user classes, processors and predicates. -/
structure ClassLoader (σ : Type) where
  hasClass : String → Bool
  processor : String → Option (EntryProcessor σ)
  predicate : String → Option (RowPredicate σ)

namespace ClassLoader

/-- A loader of registered classes. Processors and predicates are classes, too, and
a later registration of a name replaces an earlier one. -/
def ofRegistrations {σ : Type} (classes : List String)
    (processors : List (String × EntryProcessor σ))
    (predicates : List (String × RowPredicate σ)) : ClassLoader σ where
  hasClass name :=
    classes.contains name || (processors.map Prod.fst).contains name ||
      (predicates.map Prod.fst).contains name
  processor name := processors.reverse.lookup name
  predicate name := predicates.reverse.lookup name

end ClassLoader

/-- Fails with the first class of a value that is not known. -/
def Value.checkClasses (v : Value) (hasClass : String → Bool) : Except UnmarshalError Unit :=
  match v.classes.find? fun name => !hasClass name with
  | some missing => .error (.classNotFound missing)
  | none => .ok ()

end Enlistment
