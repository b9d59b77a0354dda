import Enlistment.Bytes

/-!
# User values

Keys, values and processor arguments are values. An object names the user class
it belongs to; a node that wants to look inside one needs that class.
-/

namespace Enlistment

/-- A user key or value. -/
inductive Value where
  | null
  | bool (b : Bool)
  | int (n : Int64)
  | text (s : String)
  | bytes (bs : Bytes)
  | object (className : String) (fields : List (String × Value))
  deriving Inhabited

namespace Value

/-- Whether the value is the null value, which is not the same as no value. -/
def isNull : Value → Bool
  | null => true
  | _ => false

/-- Whether the value itself belongs to a user class. -/
def isObject : Value → Bool
  | object .. => true
  | _ => false

mutual
/-- The class names of a value, outermost first and fields from left to right. -/
def classes : Value → List String
  | object className fields => className :: fieldClasses fields
  | _ => []
/-- The class names of a list of fields. -/
def fieldClasses : List (String × Value) → List String
  | [] => []
  | (_, v) :: rest => classes v ++ fieldClasses rest
end

mutual
/-- Equality of values is decidable. -/
def decEq : (v w : Value) → Decidable (v = w)
  | null, null => isTrue rfl
  | bool a, bool b =>
    if h : a = b then isTrue (h ▸ rfl) else isFalse fun e => h (bool.inj e)
  | int a, int b =>
    if h : a = b then isTrue (h ▸ rfl) else isFalse fun e => h (int.inj e)
  | text a, text b =>
    if h : a = b then isTrue (h ▸ rfl) else isFalse fun e => h (text.inj e)
  | bytes a, bytes b =>
    if h : a = b then isTrue (h ▸ rfl) else isFalse fun e => h (bytes.inj e)
  | object c fs, object d gs =>
    if h : c = d then
      match decEqFields fs gs with
      | isTrue hs => isTrue (by rw [h, hs])
      | isFalse hs => isFalse fun e => hs (object.inj e).2
    else isFalse fun e => h (object.inj e).1
  | null, bool _ | null, int _ | null, text _ | null, bytes _ | null, object .. => isFalse nofun
  | bool _, null | bool _, int _ | bool _, text _ | bool _, bytes _ | bool _, object .. =>
    isFalse nofun
  | int _, null | int _, bool _ | int _, text _ | int _, bytes _ | int _, object .. => isFalse nofun
  | text _, null | text _, bool _ | text _, int _ | text _, bytes _ | text _, object .. =>
    isFalse nofun
  | bytes _, null | bytes _, bool _ | bytes _, int _ | bytes _, text _ | bytes _, object .. =>
    isFalse nofun
  | object .., null | object .., bool _ | object .., int _ | object .., text _
  | object .., bytes _ => isFalse nofun
/-- Equality of field lists is decidable. -/
def decEqFields : (fs gs : List (String × Value)) → Decidable (fs = gs)
  | [], [] => isTrue rfl
  | [], _ :: _ => isFalse nofun
  | _ :: _, [] => isFalse nofun
  | (m, v) :: fs, (n, w) :: gs =>
    if h : m = n then
      match decEq v w with
      | isTrue hv =>
        match decEqFields fs gs with
        | isTrue hs => isTrue (by rw [h, hv, hs])
        | isFalse hs => isFalse fun e => hs (List.cons.inj e).2
      | isFalse hv => isFalse fun e => hv (Prod.mk.inj (List.cons.inj e).1).2
    else isFalse fun e => h (Prod.mk.inj (List.cons.inj e).1).1
end

instance : DecidableEq Value := decEq

end Value

end Enlistment
