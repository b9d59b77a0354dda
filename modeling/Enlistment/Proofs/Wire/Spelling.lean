import Enlistment.Proofs.Wire.Emission

/-!
# How octets spell a message

Several octet strings may be read as the same message: every octet but zero is true, and an
absent text may count as an empty one. A spelling relates a record to the octets it can be read
from, and under a limit to its lengths a record that is spelled keeps to the limit.
-/

namespace Enlistment

/-- The octets of the number that is read from some octets. -/
theorem Bytes.littleEndian_toNat (bs : Bytes) : littleEndian bs.length bs.toNat = bs := by
  induction bs with
  | nil => rfl
  | cons b rest ih =>
    have hlow : UInt8.ofNat (b.toNat + 256 * toNat rest) = b := by
      rw [← UInt8.toNat_inj, UInt8.toNat_ofNat']
      have hb := b.toNat_lt
      omega
    have hhigh : (b.toNat + 256 * toNat rest) / 256 = toNat rest := by
      have hb := b.toNat_lt
      omega
    rw [List.length_cons, toNat, littleEndian, hlow, hhigh, ih]

namespace Wire

/-! ## Numbers -/

/-- The octets of a number of 16 bits are those it is read from. -/
theorem littleEndian_uint16Of {bs : Bytes} (h : bs.length = 2) :
    Bytes.littleEndian 2 (uint16Of bs).toNat = bs := by
  have hlt : bs.toNat < Nat.pow 256 2 := h ▸ bs.toNat_lt
  rw [uint16Of, UInt16.toNat_ofNat', Nat.mod_eq_of_lt hlt, ← h, Bytes.littleEndian_toNat]

/-- The octets of a number of 32 bits are those it is read from. -/
theorem int32Bytes_int32Of {bs : Bytes} (h : bs.length = 4) : int32Bytes (int32Of bs) = bs := by
  have hlt : bs.toNat < Nat.pow 256 4 := h ▸ bs.toNat_lt
  show Bytes.littleEndian 4 (UInt32.ofNat bs.toNat).toNat = bs
  rw [UInt32.toNat_ofNat', Nat.mod_eq_of_lt hlt, ← h, Bytes.littleEndian_toNat]

/-- The octets of a number of 64 bits are those it is read from. -/
theorem int64Bytes_int64Of {bs : Bytes} (h : bs.length = 8) : int64Bytes (int64Of bs) = bs := by
  have hlt : bs.toNat < Nat.pow 256 8 := h ▸ bs.toNat_lt
  show Bytes.littleEndian 8 (UInt64.ofNat bs.toNat).toNat = bs
  rw [UInt64.toNat_ofNat', Nat.mod_eq_of_lt hlt, ← h, Bytes.littleEndian_toNat]

/-- The octets of a number of 128 bits are those it is read from. -/
theorem uint128Bytes_uint128Of {bs : Bytes} (h : bs.length = 16) :
    uint128Bytes (uint128Of bs) = bs := by
  have hlt : bs.toNat < 2 ^ 128 := by
    have hlt := bs.toNat_lt
    rw [h] at hlt
    exact hlt
  rw [uint128Bytes, uint128Of, BitVec.toNat_ofNat, Nat.mod_eq_of_lt hlt, ← h,
    Bytes.littleEndian_toNat]

/-- The octets of numbers are those they are read from. -/
theorem flatMap_takeLongs {count : Nat} {bs : Bytes} (h : 8 * count ≤ bs.length) :
    (takeLongs count bs).flatMap int64Bytes = bs.take (8 * count) := by
  induction count generalizing bs with
  | zero => rfl
  | succ count ih =>
    have hfirst : (bs.take 8).length = 8 := by
      rw [List.length_take]
      omega
    have hrest : 8 * count ≤ (bs.drop 8).length := by
      rw [List.length_drop]
      omega
    rw [takeLongs, List.flatMap_cons, int64Bytes_int64Of hfirst, ih hrest, Nat.mul_succ,
      Nat.add_comm, List.take_add]

/-- A length that is accepted is spelled by its length field, and keeps to the limit. -/
theorem decodeLength_ok {maxLength : Nat} {bs : Bytes} {length : Option Nat} (hlen : bs.length = 4)
    (h : decodeLength maxLength (int32Of bs) = .ok length) :
    bs = lengthBytes length ∧ ∀ n, length = some n → n ≤ min maxLength maxWireLength := by
  unfold decodeLength at h
  split at h
  · next habsent =>
    obtain rfl := Except.ok.inj h
    refine ⟨?_, fun n hn => by cases hn⟩
    rw [lengthBytes, ← habsent, int32Bytes_int32Of hlen]
  · split at h
    · cases h
    · next hnonneg =>
      split at h
      · cases h
      · next hmax =>
        obtain rfl := Except.ok.inj h
        have hle : 0 ≤ (int32Of bs).toInt := by
          rw [Int32.lt_iff_toInt_lt] at hnonneg
          exact Int.not_lt.mp hnonneg
        have hlt := (int32Of bs).toInt_lt
        refine ⟨?_, fun n hn => ?_⟩
        · have hraw : Int32.ofNat (int32Of bs).toInt.toNat = int32Of bs := by
            rw [← Int32.toInt_inj, Int32.toInt_ofNat_of_lt (by omega)]
            omega
          rw [lengthBytes, hraw, int32Bytes_int32Of hlen]
        · rw [← Option.some.inj hn]
          simp only [maxWireLength]
          omega

/-! ## Spellings -/

/-- How octets spell a list that may be absent, under a limit: its length and the contents. -/
def SpellsSized {B : Type} (limit : Nat) (spells : List B → Bytes → Prop) :
    Option (List B) → Bytes → Prop
  | none, bs => bs = lengthBytes none
  | some items, bs =>
    items.length ≤ limit ∧ ∃ body, bs = lengthBytes (some items.length) ++ body ∧ spells items body

/-- How octets spell elements one after the other. -/
def SpellsEach {R : Type} (spells : R → Bytes → Prop) : List R → Bytes → Prop
  | [], bs => bs = []
  | item :: rest, bs =>
    ∃ front back, bs = front ++ back ∧ spells item front ∧ SpellsEach spells rest back

/-- How octets spell a message that may be absent. -/
def SpellsOptional {R : Type} (spells : R → Bytes → Prop) : Option R → Bytes → Prop
  | none, bs => bs = nullBytes
  | some message, bs => spells message bs

/-- The slot of a text field for the text that came in, if it may stand there. -/
def NullText.slot? : NullText → Option String → Option TextSlot
  | _, some s => some { text := some s }
  | .keep, none => some {}
  | .blank, none => some { text := some "" }
  | .refuse _, none => none

/-- The slot of a field after settling: the rows of a batch are handed over. -/
def Field.handedOver : {A : Type} → Field A → A → A
  | _, .keys _, slot => { settled := slot.inbound }
  | _, .values _ _ _, slot =>
    { settled := (slot.inboundValues.map .inl).or (slot.inboundInvocations.map .inr) }
  | _, _, slot => slot

/-- The slots of fields after settling. -/
def Fields.handedOver : {S : Type} → Fields S → S → S
  | _, .nil, slots => slots
  | _, .cons field rest, slots => (field.handedOver slots.1, rest.handedOver slots.2)

mutual
/-- How octets spell a record, with all lengths at most `limit`. -/
def Layout.Spells (limit : Nat) : {R : Type} → Layout R → R → Bytes → Prop
  | _, .message type fields settle, message, bs =>
    ∃ slots body, bs = headerBytes type fields.count message.flags ++ body ∧
      fields.Spells limit (-1) slots body ∧ settle slots = (.ok (), message.slots) ∧
      message.slots = fields.handedOver slots
/-- How octets spell slots as they arrive, given the last ordinal before them. -/
def Fields.Spells (limit : Nat) : {S : Type} → Fields S → (tag : Int8) → S → Bytes → Prop
  | _, .nil, _, _, bs => bs = []
  | _, .cons field rest, tag, slots, bs =>
    ∃ front back, bs = front ++ back ∧ field.Spells limit tag slots.1 front ∧
      rest.Spells limit (field.tag slots.1 tag) slots.2 back
/-- How octets spell a slot as it arrives, given the last ordinal before it. -/
def Field.Spells (limit : Nat) : {A : Type} → Field A → (tag : Int8) → A → Bytes → Prop
  | _, .flag, _, slot, bs => ∃ b, bs = [b] ∧ slot = (b != 0)
  | _, .ordinal _ count optional _, _, slot, bs =>
    bs = [slot.toUInt8] ∧ ordinalAllowed count optional slot = true
  | _, .int32, _, slot, bs => bs = int32Bytes slot
  | _, .int64, _, slot, bs => bs = int64Bytes slot
  | _, .uint128, _, slot, bs => bs = uint128Bytes slot
  | _, .bytes, _, slot, bs => SpellsSized limit Eq slot bs
  | _, .text onNull, _, slot, bs =>
    ∃ value : Option String, SpellsSized limit Eq (value.map Bytes.ofText) bs ∧
      onNull.slot? value = some slot
  | _, .longs, _, slot, bs =>
    ∃ value, SpellsSized limit (fun items body => body = items.flatMap int64Bytes) value bs ∧
      slot = value.getD []
  | _, .optional layout, _, slot, bs => SpellsOptional (layout.Spells limit) slot bs
  | _, .required _ layout, _, slot, bs => layout.Spells limit slot bs
  | _, .array layout, _, slot, bs => SpellsSized limit (SpellsEach (layout.Spells limit)) slot bs
  | _, .batch layout, _, slot, bs =>
    ∃ value, SpellsSized limit (SpellsEach (layout.Spells limit)) value bs ∧
      slot = { settled := value.getD [] }
  | _, .keys layout, _, slot, bs =>
    SpellsSized limit (SpellsEach (layout.Spells limit)) slot.inbound bs ∧
      slot = { inbound := slot.inbound }
  | _, .values selector value invocation, tag, slot, bs =>
    if tag = selector then
      SpellsSized limit (SpellsEach (invocation.Spells limit)) slot.inboundInvocations bs ∧
        slot = { inboundInvocations := slot.inboundInvocations }
    else
      SpellsSized limit (SpellsEach (value.Spells limit)) slot.inboundValues bs ∧
        slot = { inboundValues := slot.inboundValues }
end

/-! ## Lengths -/

/-- What holds of all elements that are spelled. -/
theorem SpellsEach.forall_mem {R : Type} {spells : R → Bytes → Prop} {p : R → Prop}
    (h : ∀ item bs, spells item bs → p item) {items : List R} {bs : Bytes}
    (hitems : SpellsEach spells items bs) : ∀ item ∈ items, p item := by
  induction items generalizing bs with
  | nil => exact fun _ hitem => absurd hitem List.not_mem_nil
  | cons item rest ih =>
    obtain ⟨front, back, -, hfront, hback⟩ := hitems
    exact List.forall_mem_cons.mpr ⟨h item front hfront, ih hback⟩

/-- An array that is spelled keeps to the limit, and so do its elements. -/
theorem SpellsSized.within {R : Type} {limit : Nat} {layout : Layout R} {bs : Bytes}
    {value : Option (List R)}
    (h : SpellsSized limit (SpellsEach (layout.Spells limit)) value bs)
    (hlayout : ∀ message bs, layout.Spells limit message bs → layout.Within limit message) :
    ∀ items, value = some items →
      items.length ≤ limit ∧ ∀ item ∈ items, layout.Within limit item := by
  rintro items rfl
  obtain ⟨hlength, body, -, hitems⟩ := h
  exact ⟨hlength, hitems.forall_mem hlayout⟩

mutual
/-- A message that is spelled keeps to the limit. -/
theorem Layout.within_of_spells {limit : Nat} : {R : Type} → (layout : Layout R) →
    (message : R) → (bs : Bytes) → layout.Spells limit message bs → layout.Within limit message
  | _, .message _ fields _, message, _, h => by
    obtain ⟨slots, body, -, hslots, -, hsettled⟩ := h
    show fields.Within limit message.slots
    rw [hsettled]
    exact fields.within_of_spells hslots
/-- Fields that are spelled keep to the limit. -/
theorem Fields.within_of_spells {limit : Nat} : {S : Type} → (fields : Fields S) → {tag : Int8} →
    {slots : S} → {bs : Bytes} → fields.Spells limit tag slots bs →
    fields.Within limit (fields.handedOver slots)
  | _, .nil, _, _, _, _ => trivial
  | _, .cons field rest, _, _, _, h => by
    obtain ⟨front, back, -, hfield, hrest⟩ := h
    exact ⟨field.within_of_spells hfield, rest.within_of_spells hrest⟩
/-- A field that is spelled keeps to the limit. -/
theorem Field.within_of_spells {limit : Nat} : {A : Type} → (field : Field A) → {tag : Int8} →
    {slot : A} → {bs : Bytes} → field.Spells limit tag slot bs →
    field.Within limit (field.handedOver slot)
  | _, .flag, _, _, _, _ => trivial
  | _, .ordinal _ _ _ _, _, _, _, _ => trivial
  | _, .int32, _, _, _, _ => trivial
  | _, .int64, _, _, _, _ => trivial
  | _, .uint128, _, _, _, _ => trivial
  | _, .bytes, _, _, _, h => by
    rintro value rfl
    exact h.1
  | _, .text onNull, _, slot, _, h => by
    obtain ⟨value, hvalue, hslot⟩ := h
    intro s hs
    cases value with
    | some t =>
      obtain rfl : { text := some t } = slot := by cases onNull <;> exact Option.some.inj hslot
      obtain rfl : t = s := Option.some.inj hs
      exact hvalue.1
    | none =>
      -- an absent text counts as an empty one or stays absent
      cases onNull with
      | keep =>
        obtain rfl : {} = slot := Option.some.inj hslot
        cases hs
      | blank =>
        obtain rfl : { text := some "" } = slot := Option.some.inj hslot
        obtain rfl : "" = s := Option.some.inj hs
        exact Nat.zero_le _
      | refuse fault => cases hslot
  | _, .longs, _, _, _, h => by
    obtain ⟨value, hvalue, rfl⟩ := h
    cases value with
    | none => exact Nat.zero_le _
    | some items => exact hvalue.1
  | _, .optional layout, _, _, bs, h => by
    rintro message rfl
    exact layout.within_of_spells message bs h
  | _, .required _ layout, _, slot, bs, h => layout.within_of_spells slot bs h
  | _, .array layout, _, _, _, h => h.within layout.within_of_spells
  | _, .batch layout, _, _, _, h => by
    obtain ⟨value, hvalue, rfl⟩ := h
    cases value with
    | none => exact ⟨Nat.zero_le _, fun _ hitem => absurd hitem List.not_mem_nil⟩
    | some items => exact hvalue.within layout.within_of_spells items rfl
  | _, .keys layout, _, _, _, h => h.1.within layout.within_of_spells
  | _, .values selector value invocation, tag, slot, _, h => by
    by_cases htag : tag = selector
    · simp only [Field.Spells, if_pos htag] at h
      obtain ⟨hitems, hslot⟩ := h
      rw [hslot]
      refine ⟨fun items hsettled => ?_, fun items hsettled => ?_⟩
      · obtain ⟨_, -, hne⟩ := Option.map_eq_some_iff.mp hsettled
        cases hne
      · obtain ⟨found, hfound, hsame⟩ := Option.map_eq_some_iff.mp hsettled
        obtain rfl : found = items := Sum.inr.inj hsame
        exact hitems.within invocation.within_of_spells found hfound
    · simp only [Field.Spells, if_neg htag] at h
      obtain ⟨hitems, hslot⟩ := h
      rw [hslot]
      cases hvalues : slot.inboundValues with
      | none => exact ⟨fun _ hsettled => (nomatch hsettled), fun _ hsettled => (nomatch hsettled)⟩
      | some found =>
        refine ⟨fun items hsettled => ?_, fun items hsettled => (nomatch hsettled)⟩
        obtain rfl : found = items := Sum.inl.inj (Option.some.inj hsettled)
        exact hitems.within value.within_of_spells found hvalues
end

end Wire

end Enlistment
