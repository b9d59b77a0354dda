import Enlistment.Bytes

/-!
# Text as octets

Text travels as UTF-8. An ill-formed octet string is described by the length of
its longest well-formed start and by the length of the ill-formed sequence that
follows, which is unknown when the string ends in the middle of a character.
-/

namespace Enlistment.Bytes

/-- Where an octet string stops being UTF-8. -/
structure TextFault where
  validUpTo : Nat
  faultLength : Option Nat
  deriving DecidableEq, Repr

/-- The octets of a text. -/
def ofText (s : String) : Bytes :=
  s.toByteArray.data.toList

/-- Whether an octet continues a character. -/
def isContinuation (b : UInt8) : Bool :=
  0x80 ≤ b && b ≤ 0xBF

/-- The lead octet of a character of several octets: how many octets follow it,
and the range of the first of them. -/
def leadOctet (b : UInt8) : Option (Nat × UInt8 × UInt8) :=
  if 0xC2 ≤ b && b ≤ 0xDF then some (1, 0x80, 0xBF)
  else if b = 0xE0 then some (2, 0xA0, 0xBF)
  else if b = 0xED then some (2, 0x80, 0x9F)
  else if 0xE1 ≤ b && b ≤ 0xEF then some (2, 0x80, 0xBF)
  else if b = 0xF0 then some (3, 0x90, 0xBF)
  else if 0xF1 ≤ b && b ≤ 0xF3 then some (3, 0x80, 0xBF)
  else if b = 0xF4 then some (3, 0x80, 0x8F)
  else none

/-- One step of the well-formedness scan: the size of the first character, or the
size of the ill-formed sequence in its place (`none` if the end cuts it off). -/
def scanCharacter (b : UInt8) (rest : Bytes) : Except (Option Nat) Nat :=
  if b < 0x80 then .ok 1
  else match leadOctet b with
    | none => .error (some 1)
    | some (count, low, high) =>
      match rest with
      | [] => .error none
      | c :: rest =>
        if c < low || high < c then .error (some 1)
        else
          let following := (rest.take (count - 1)).takeWhile isContinuation
          if following.length = count - 1 then .ok (count + 1)
          else if following.length = rest.length then .error none
          else .error (some (following.length + 2))

/-- The first fault of an octet string that is not UTF-8, scanning at most `fuel`
characters from position `start`. -/
def textFaultFrom (start : Nat) : (fuel : Nat) → Bytes → Option TextFault
  | 0, _ => none
  | _, [] => none
  | fuel + 1, b :: rest =>
    match scanCharacter b rest with
    | .ok size => textFaultFrom (start + size) fuel (rest.drop (size - 1))
    | .error faultLength => some ⟨start, faultLength⟩

/-- The first fault of an octet string that is not UTF-8. -/
def textFault (bs : Bytes) : Option TextFault :=
  textFaultFrom 0 bs.length bs

/-- The text of a UTF-8 octet string. -/
def toText? (bs : Bytes) : Option String :=
  String.fromUTF8? ⟨bs.toArray⟩

/-- The octets of a text read back as that text. -/
@[simp]
theorem toText?_ofText (s : String) : toText? (ofText s) = some s := by
  have h : (⟨(ofText s).toArray⟩ : ByteArray) = s.toByteArray := by simp [ofText]
  rw [toText?, h, String.fromUTF8?, dif_pos s.isValidUTF8]
  rfl

/-- The text of some octets has these octets. -/
theorem ofText_of_toText? {bs : Bytes} {s : String} (h : toText? bs = some s) : ofText s = bs := by
  unfold toText? String.fromUTF8? at h
  split at h
  · rw [← Option.some.inj h]
    simp [ofText, String.fromUTF8]
  · cases h

end Enlistment.Bytes
