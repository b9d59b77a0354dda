import Enlistment.Wire.Encoding

/-!
# Records that arrive

Reading the encoding of a message gives its slots in the form in which they arrive:
staged contents are gone, and the rows of a batch wait to be settled. A record is sound
if its slots may arrive and settle to what they are.
-/

namespace Enlistment.Wire

/-- The slot of a field as it arrives, before the message is settled. -/
def Field.arrived : {A : Type} → Field A → A → A
  | _, .text _, slot => { text := slot.text }
  | _, .batch _, slot => { settled := slot.settled }
  | _, .keys _, slot => { inbound := slot.settled }
  | _, .values _ _ _, slot =>
    match slot.settled with
    | none => {}
    | some (.inl items) => { inboundValues := some items }
    | some (.inr items) => { inboundInvocations := some items }
  | _, _, slot => slot

/-- The slots of fields as they arrive. -/
def Fields.arrived : {S : Type} → Fields S → S → S
  | _, .nil, slots => slots
  | _, .cons field rest, slots => (field.arrived slots.1, rest.arrived slots.2)

mutual
/-- Whether a record may be read: its slots may arrive, and they settle to what they are. -/
def Layout.Sound : {R : Type} → Layout R → R → Prop
  | _, .message _ fields settle, message =>
    fields.Arrives (-1) (fields.arrived message.slots) ∧
      settle (fields.arrived message.slots) = (.ok (), message.slots)
/-- Whether slots may arrive, given the last ordinal before them. -/
def Fields.Arrives : {S : Type} → Fields S → (tag : Int8) → S → Prop
  | _, .nil, _, _ => True
  | _, .cons field rest, tag, slots =>
    field.Arrives tag slots.1 ∧ rest.Arrives (field.tag slots.1 tag) slots.2
/-- Whether a slot may arrive, given the last ordinal before it. -/
def Field.Arrives : {A : Type} → Field A → (tag : Int8) → A → Prop
  | _, .flag, _, _ => True
  | _, .ordinal _ count optional _, _, slot => ordinalAllowed count optional slot = true
  | _, .int32, _, _ => True
  | _, .int64, _, _ => True
  | _, .uint128, _, _ => True
  | _, .bytes, _, _ => True
  | _, .text onNull, _, slot => slot.staged = none ∧ (slot.text = none → onNull = .keep)
  | _, .longs, _, _ => True
  | _, .optional layout, _, slot => ∀ message, slot = some message → layout.Sound message
  | _, .required _ layout, _, slot => layout.Sound slot
  | _, .array layout, _, slot => ∀ items, slot = some items → ∀ item ∈ items, layout.Sound item
  | _, .batch layout, _, slot => slot.staged = none ∧ ∀ item ∈ slot.settled, layout.Sound item
  | _, .keys layout, _, slot =>
    slot.settled = none ∧ slot.unconverted = false ∧
      ∀ items, slot.inbound = some items → ∀ item ∈ items, layout.Sound item
  | _, .values selector value invocation, tag, slot =>
    slot.settled = none ∧
      (∀ items, slot.inboundValues = some items →
        tag ≠ selector ∧ ∀ item ∈ items, value.Sound item) ∧
      (∀ items, slot.inboundInvocations = some items →
        tag = selector ∧ ∀ item ∈ items, invocation.Sound item)
end

mutual
/-- Whether the messages of a layout can be told from an absent message and their number of
fields fits the header. -/
def Layout.Lawful : {R : Type} → Layout R → Prop
  | _, .message type fields _ => type ≠ nullType ∧ fields.count < 256 ∧ fields.Lawful
/-- Whether the layouts nested in fields are lawful. -/
def Fields.Lawful : {S : Type} → Fields S → Prop
  | _, .nil => True
  | _, .cons field rest => field.Lawful ∧ rest.Lawful
/-- Whether the layouts nested in a field are lawful. -/
def Field.Lawful : {A : Type} → Field A → Prop
  | _, .flag => True
  | _, .ordinal _ _ _ _ => True
  | _, .int32 => True
  | _, .int64 => True
  | _, .uint128 => True
  | _, .bytes => True
  | _, .text _ => True
  | _, .longs => True
  | _, .optional layout => layout.Lawful
  | _, .required _ layout => layout.Lawful
  | _, .array layout => layout.Lawful
  | _, .batch layout => layout.Lawful
  | _, .keys layout => layout.Lawful
  | _, .values _ value invocation => value.Lawful ∧ invocation.Lawful
end

/-- Slots of fields that are settled as soon as they arrive. -/
def Field.plain : {A : Type} → Field A → Bool
  | _, .keys _ => false
  | _, .values _ _ _ => false
  | _, _ => true

/-- Whether all fields are settled as soon as they arrive. -/
def Fields.plain : {S : Type} → Fields S → Bool
  | _, .nil => true
  | _, .cons field rest => field.plain && rest.plain

/-- A slot that is settled as soon as it arrives does not change. -/
theorem Field.arrived_of_plain {A : Type} (field : Field A) {tag : Int8} {slot : A}
    (hplain : field.plain = true) (h : field.Arrives tag slot) : field.arrived slot = slot := by
  cases field with
  | text onNull =>
    obtain ⟨staged, text⟩ := slot
    obtain ⟨rfl, -⟩ : staged = none ∧ _ := h
    rfl
  | batch layout =>
    obtain ⟨staged, settled⟩ := slot
    obtain ⟨rfl, -⟩ : staged = none ∧ _ := h
    rfl
  | keys layout => simp [plain] at hplain
  | values selector value invocation => simp [plain] at hplain
  | _ => rfl

/-- Slots that are settled as soon as they arrive do not change. -/
theorem Fields.arrived_of_plain : {S : Type} → (fields : Fields S) → {tag : Int8} → {slots : S} →
    fields.plain = true → fields.Arrives tag slots → fields.arrived slots = slots
  | _, .nil, _, _, _, _ => rfl
  | _, .cons field rest, _, slots, hplain, h => by
    simp only [plain, Bool.and_eq_true] at hplain
    rw [arrived, field.arrived_of_plain hplain.1 h.1, rest.arrived_of_plain hplain.2 h.2]

end Enlistment.Wire
