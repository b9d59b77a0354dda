/-!
# Byte strings

Byte strings are lists of octets. Fixed-width numbers are stored with their
least significant octet first.
-/

namespace Enlistment

/-- A byte string. -/
abbrev Bytes := List UInt8

namespace Bytes

/-- The `width` low octets of `n`, least significant first. -/
def littleEndian : (width n : Nat) → Bytes
  | 0, _ => []
  | width + 1, n => UInt8.ofNat n :: littleEndian width (n / 256)

/-- The number whose octets are given least significant first. -/
def toNat : Bytes → Nat
  | [] => 0
  | b :: rest => b.toNat + 256 * toNat rest

/-- A number takes as many octets as its width says. -/
@[simp]
theorem length_littleEndian (width n : Nat) : (littleEndian width n).length = width := by
  induction width generalizing n with
  | zero => rfl
  | succ width ih => simp [littleEndian, ih]

/-- Reading back the low octets of a number that fits gives the number. -/
theorem toNat_littleEndian {width n : Nat} (h : n < Nat.pow 256 width) :
    toNat (littleEndian width n) = n := by
  induction width generalizing n with
  | zero =>
    have hn : n < 1 := h
    simp [littleEndian, toNat]
    omega
  | succ width ih =>
    have hn : n < Nat.pow 256 width * 256 := h
    rw [littleEndian, toNat, ih (by omega)]
    simp
    omega

/-- A number has no more digits than it is read from. -/
theorem toNat_lt (bs : Bytes) : toNat bs < Nat.pow 256 bs.length := by
  induction bs with
  | nil => exact Nat.one_pos
  | cons b rest ih =>
    have hb := b.toNat_lt
    show b.toNat + 256 * toNat rest < Nat.pow 256 rest.length * 256
    omega

end Bytes

end Enlistment
