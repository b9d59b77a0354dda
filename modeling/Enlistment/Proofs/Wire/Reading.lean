import Enlistment.Proofs.Wire.Spelling
import Enlistment.Proofs.Wire.Taking

/-!
# What is spelled is read

A reader takes octets that spell a slot and gives this slot, whether the slot is encoded to them
or to others. So octets whose fields are spelled one by one are read as a message, unless this
message cannot be settled.
-/

namespace Enlistment.Wire

namespace Takes

variable {maxLength : Nat}

/-! ## Units -/

/-- A truth value. -/
theorem flag (slot : Bool) (b : UInt8) :
    Takes FrameStack.AtField readBool slot [b] (b != 0) FrameStack.Fresh :=
  octets _ slot rfl rfl

/-- A byte string that may be absent. -/
theorem bytes (slot : Option Bytes) {value : Option Bytes} {bs : Bytes}
    (h : SpellsSized (min maxLength maxWireLength) Eq value bs) :
    Takes FrameStack.AtField (readBytes maxLength) slot bs value FrameStack.Fresh := by
  cases value with
  | none =>
    obtain rfl : bs = lengthBytes none := h
    exact absent slot
  | some content =>
    obtain ⟨hlength, body, rfl, rfl⟩ := h
    obtain ⟨hmax, hwire⟩ := Nat.le_min.mp hlength
    refine present slot hwire hmax fun s more hs => ⟨s, ?_, hs.fresh⟩
    have hle : content.length ≤ ([] : Bytes).length + (content ++ more).length := by
      rw [List.length_append]
      omega
    rw [fillBytes_of_le (Nat.zero_le _) hle]
    simp [Source.skip]

/-- A text field. -/
theorem text {onNull : NullText} {slot result : TextSlot} {bs : Bytes}
    (hstaged : slot.staged = none) {value : Option String}
    (h : SpellsSized (min maxLength maxWireLength) Eq (value.map Bytes.ofText) bs)
    (hresult : onNull.slot? value = some result) :
    Takes FrameStack.AtField (readTextField maxLength onNull) slot bs result FrameStack.Fresh := by
  intro s more hs
  obtain ⟨s', hread, hs'⟩ := bytes none h s more hs
  refine ⟨s', ?_, hs'⟩
  cases value with
  | none =>
    rw [Option.map_none] at hread
    cases onNull with
    | keep | blank =>
      obtain rfl := Option.some.inj hresult
      simp only [readTextField, readText, hstaged, hread]
    | refuse fault => cases hresult
  | some t =>
    rw [Option.map_some] at hread
    obtain rfl : { text := some t } = result := by cases onNull <;> exact Option.some.inj hresult
    simp only [readTextField, readText, hstaged, hread, Bytes.toText?_ofText]

/-- An array of numbers. -/
theorem longs (slot : Option (List Int64)) {value : Option (List Int64)} {bs : Bytes}
    (h : SpellsSized (min maxLength maxWireLength)
      (fun items body => body = items.flatMap int64Bytes) value bs) :
    Takes FrameStack.AtField (readLongs maxLength) slot bs value FrameStack.Fresh := by
  cases value with
  | none =>
    obtain rfl : bs = lengthBytes none := h
    exact absent slot
  | some items =>
    obtain ⟨hlength, body, rfl, rfl⟩ := h
    obtain ⟨hmax, hwire⟩ := Nat.le_min.mp hlength
    refine present slot hwire hmax fun s more hs => ⟨s, ?_, hs.fresh⟩
    have hlen : (items.flatMap int64Bytes).length = 8 * items.length := length_int64Bytes items
    have hcount : min (items.length - ([] : List Int64).length)
        ((items.flatMap int64Bytes ++ more).length / 8) = items.length := by
      rw [List.length_append, hlen, List.length_nil]
      omega
    show fillLongs items.length [] ⟨s, items.flatMap int64Bytes ++ more⟩ = _
    simp only [fillLongs, hcount, takeLongs_int64Bytes, List.nil_append, Source.skip,
      List.drop_left' hlen, Nat.le_refl, decide_true, Progress.ofComplete, if_true]

/-! ## Nested messages -/

section

variable {R : Type} {create : UInt16 → Option R} {read : R → Source → Reading R} {blank : R}
  {spells : R → Bytes → Prop}
  (hkeeps : Resumable FrameStack.SameOuter read)
  (hopen : ∀ message bs, spells message bs → Announces create blank bs)
  (h : ∀ message bs, spells message bs →
    Takes FrameStack.AtMessage read blank bs message FrameStack.Fresh)
include hkeeps hopen h

/-- A message that may be absent. -/
theorem optional (slot : Option R) {value : Option R} {bs : Bytes}
    (hvalue : SpellsOptional spells value bs) :
    Takes FrameStack.AtField (readMessage create read) slot bs value FrameStack.Fresh := by
  cases value with
  | none =>
    obtain rfl : bs = nullBytes := hvalue
    exact null slot
  | some found => exact message slot hkeeps (hopen found bs hvalue) (h found bs hvalue)

/-- The elements of an array, one after the other. -/
theorem elements {messages : List R} {bs : Bytes} (hmessages : SpellsEach spells messages bs)
    (items : List R) :
    Takes FrameStack.Between (readElements create read messages.length) items bs
      (items ++ messages) FrameStack.Between := by
  induction messages generalizing items bs with
  | nil =>
    obtain rfl : bs = [] := hmessages
    intro s more hs
    exact ⟨s, by simp [readElements], hs⟩
  | cons message rest ih =>
    obtain ⟨front, back, rfl, hfront, hback⟩ := hmessages
    intro s more hs
    obtain ⟨s₁, hread₁, hs₁⟩ := element hkeeps (hopen message front hfront)
      (h message front hfront) items s (back ++ more) hs
    obtain ⟨s₂, hread₂, hs₂⟩ := ih hback (items ++ [message]) s₁ more hs₁
    refine ⟨s₂, ?_, hs₂⟩
    simp only [List.length_cons, readElements, List.append_assoc, hread₁,
      Progress.isAdvance_advance, if_true, hread₂, List.singleton_append]

/-- An array of messages that may be absent. -/
theorem messages (slot : Option (List R)) {value : Option (List R)} {bs : Bytes}
    (hvalue : SpellsSized (min maxLength maxWireLength) (SpellsEach spells) value bs) :
    Takes FrameStack.AtField (readMessages maxLength create read) slot bs value
      FrameStack.Fresh := by
  cases value with
  | none =>
    obtain rfl : bs = lengthBytes none := hvalue
    exact absent slot
  | some items =>
    obtain ⟨hlength, body, rfl, hitems⟩ := hvalue
    obtain ⟨hmax, hwire⟩ := Nat.le_min.mp hlength
    refine present slot hwire hmax fun s more hs => ?_
    obtain ⟨s', hread, hs'⟩ :=
      elements hkeeps hopen h hitems [] s more ⟨hs.messageStarted, hs.fresh⟩
    refine ⟨s', ?_, hs'.fresh⟩
    simp only [hs.position, Nat.sub_zero, hread, List.nil_append]

end

end Takes

/-! ## Messages -/

/-- What spells a message announces it. -/
theorem Layout.announces_of_spells {R : Type} (layout : Layout R) (hlawful : layout.Lawful)
    {limit : Nat} (message : R) (bs : Bytes) (h : layout.Spells limit message bs) :
    Announces layout.create layout.blank bs := by
  cases layout with
  | message type fields settle =>
    obtain ⟨slots, body, rfl, -⟩ := h
    exact Layout.announces_header hlawful message.flags body

mutual
/-- A message is read from the octets that spell it. -/
theorem Layout.reads : {R : Type} → (layout : Layout R) → (maxLength : Nat) → layout.Lawful →
    (message : R) → (bs : Bytes) → layout.Spells (min maxLength maxWireLength) message bs →
    Takes FrameStack.AtMessage (layout.read maxLength) layout.blank bs message FrameStack.Fresh
  | _, .message _ fields _, maxLength, hlawful, message, _, h => by
    obtain ⟨slots, body, rfl, hslots, hsettle, -⟩ := h
    exact Layout.takes_message hlawful.2.1 (fields.reads maxLength hlawful.2.2 hslots) hsettle
/-- Fields are read from the octets that spell them. -/
theorem Fields.reads : {S : Type} → (fields : Fields S) → (maxLength : Nat) → fields.Lawful →
    {tag : Int8} → {slots : S} → {bs : Bytes} →
    fields.Spells (min maxLength maxWireLength) tag slots bs →
    fields.TakesFrom maxLength tag bs slots
  | _, .nil, _, _, _, _, _, h => by
    intro s more hs
    obtain rfl := h
    exact ⟨s, rfl, hs.fresh, rfl⟩
  | _, .cons field rest, maxLength, hlawful, _, _, _, h => by
    obtain ⟨front, back, rfl, hfield, hrest⟩ := h
    exact .cons (field.reads maxLength hlawful.1 hfield) (rest.reads maxLength hlawful.2 hrest)
/-- A field is read from the octets that spell it. -/
theorem Field.reads : {A : Type} → (field : Field A) → (maxLength : Nat) → field.Lawful →
    {tag : Int8} → {slot : A} → {bs : Bytes} →
    field.Spells (min maxLength maxWireLength) tag slot bs →
    Takes FrameStack.AtField (field.read maxLength tag) field.blank bs slot FrameStack.Fresh
  | _, .flag, _, _, _, _, _, h => by
    obtain ⟨b, rfl, rfl⟩ := h
    exact Takes.flag _ b
  | _, .ordinal _ _ _ _, _, _, _, _, _, h => by
    obtain ⟨rfl, hallowed⟩ := h
    exact Takes.ordinal _ hallowed
  | _, .int32, _, _, _, slot, _, h => by
    obtain rfl := h
    exact Takes.octets _ _ (Bytes.length_littleEndian 4 _) (int32Of_int32Bytes slot)
  | _, .int64, _, _, _, slot, _, h => by
    obtain rfl := h
    exact Takes.octets _ _ (Bytes.length_littleEndian 8 _) (int64Of_int64Bytes slot)
  | _, .uint128, _, _, _, slot, _, h => by
    obtain rfl := h
    exact Takes.octets _ _ (Bytes.length_littleEndian 16 _) (uint128Of_uint128Bytes slot)
  | _, .bytes, _, _, _, _, _, h => .bytes none h
  | _, .text onNull, _, _, _, _, _, h => by
    obtain ⟨value, hvalue, hslot⟩ := h
    cases onNull <;> exact Takes.text rfl hvalue hslot
  | _, .longs, _, _, _, _, _, h => by
    obtain ⟨value, hvalue, rfl⟩ := h
    intro s more hs
    obtain ⟨s', hread, hs'⟩ := Takes.longs (some []) hvalue s more hs
    exact ⟨s', congrArg (Reading.map fun items : Option (List Int64) => items.getD []) hread, hs'⟩
  | _, .optional layout, maxLength, hlawful, _, _, _, h =>
    .optional (layout.resumable maxLength) (layout.announces_of_spells hlawful)
      (layout.reads maxLength hlawful) none h
  | _, .required name layout, maxLength, hlawful, _, slot, bs, h =>
    .required name _ (layout.resumable maxLength) (layout.announces_of_spells hlawful slot bs h)
      (layout.reads maxLength hlawful slot bs h)
  | _, .array layout, maxLength, hlawful, _, _, _, h =>
    .messages (layout.resumable maxLength) (layout.announces_of_spells hlawful)
      (layout.reads maxLength hlawful) none h
  | _, .batch layout, maxLength, hlawful, _, _, _, h => by
    obtain ⟨value, hvalue, rfl⟩ := h
    intro s more hs
    obtain ⟨s', hread, hs'⟩ := Takes.messages (layout.resumable maxLength)
      (layout.announces_of_spells hlawful) (layout.reads maxLength hlawful) none hvalue s more hs
    exact ⟨s', congrArg (BatchSlot.store {}) hread, hs'⟩
  | _, .keys layout, maxLength, hlawful, _, _, _, h => by
    obtain ⟨hkeys, hslot⟩ := h
    rw [hslot]
    intro s more hs
    obtain ⟨s', hread, hs'⟩ := Takes.messages (layout.resumable maxLength)
      (layout.announces_of_spells hlawful) (layout.reads maxLength hlawful) none hkeys s more hs
    have harrive := congrArg (Reading.map fun keys : Option (List _) =>
      ({ inbound := keys } : KeysSlot _)) hread
    exact ⟨s', harrive, hs'⟩
  | _, .values selector value invocation, maxLength, hlawful, tag, _, _, h => by
    intro s more hs
    simp only [Field.Spells] at h
    simp only [Field.read, Field.blank]
    by_cases htag : tag = selector
    · rw [if_pos htag] at h ⊢
      obtain ⟨hitems, hslot⟩ := h
      rw [hslot]
      obtain ⟨s', hread, hs'⟩ := Takes.messages (invocation.resumable maxLength)
        (invocation.announces_of_spells hlawful.2) (invocation.reads maxLength hlawful.2) none
        hitems s more hs
      exact ⟨s', congrArg (Reading.map _) hread, hs'⟩
    · rw [if_neg htag] at h ⊢
      obtain ⟨hitems, hslot⟩ := h
      rw [hslot]
      obtain ⟨s', hread, hs'⟩ := Takes.messages (value.resumable maxLength)
        (value.announces_of_spells hlawful.1) (value.reads maxLength hlawful.1) none
        hitems s more hs
      exact ⟨s', congrArg (Reading.map _) hread, hs'⟩
end

/-! ## Messages whose fields are there -/

/-- Whether some octets are the header of a message and the fields of its record one by one, each
as it arrives. Whether the record can be settled is left open. -/
def Layout.Formed (limit : Nat) : {R : Type} → Layout R → R → Bytes → Prop
  | _, .message type fields _, record, bs =>
    ∃ body, bs = headerBytes type fields.count record.flags ++ body ∧
      fields.Spells limit (-1) record.slots body

/-- Whether each slot is spelled by some octets, given the last ordinal before them. -/
def Fields.EachSpelled (limit : Nat) : {S : Type} → Fields S → (tag : Int8) → S → Prop
  | _, .nil, _, _ => True
  | _, .cons field rest, tag, slots =>
    (∃ bs, field.Spells limit tag slots.1 bs) ∧
      rest.EachSpelled limit (field.tag slots.1 tag) slots.2

/-- Slots that are spelled together are spelled one by one. -/
theorem Fields.each_of_spells {limit : Nat} : {S : Type} → (fields : Fields S) → {tag : Int8} →
    {slots : S} → (∃ bs, fields.Spells limit tag slots bs) → fields.EachSpelled limit tag slots
  | _, .nil, _, _, _ => trivial
  | _, .cons _ rest, _, _, h => by
    obtain ⟨bs, front, back, -, hfield, hrest⟩ := h
    exact ⟨⟨front, hfield⟩, rest.each_of_spells ⟨back, hrest⟩⟩

/-- Settles the fields of a record as they have arrived. -/
def Layout.settle : {R : Type} → Layout R → R → Except CodecError Unit × R
  | _, .message _ _ settle, record =>
    ((settle record.slots).1, ⟨record.flags, (settle record.slots).2⟩)

/-- What spells a message is the fields of a record that is settled to it. -/
theorem Layout.Spells.formed {R : Type} {layout : Layout R} {limit : Nat} {message : R}
    {bs : Bytes} (h : layout.Spells limit message bs) :
    ∃ arrived, layout.Formed limit arrived bs ∧ layout.settle arrived = (.ok (), message) := by
  cases layout with
  | message type fields settle =>
    obtain ⟨slots, body, rfl, hslots, hsettle, -⟩ := h
    refine ⟨⟨message.flags, slots⟩, ⟨body, rfl, hslots⟩, ?_⟩
    simp only [Layout.settle, hsettle]

/-- Octets that are the fields of a message announce it. -/
theorem Layout.Formed.announces {R : Type} {layout : Layout R} (hlawful : layout.Lawful)
    {limit : Nat} {record : R} {bs : Bytes} (h : layout.Formed limit record bs) :
    Announces layout.create layout.blank bs := by
  cases layout with
  | message type fields settle =>
    obtain ⟨body, rfl, -⟩ := h
    exact Layout.announces_header hlawful record.flags body

/-- A message whose fields are there is read as far as it can be settled. -/
theorem Layout.Formed.read {R : Type} {layout : Layout R} (hlawful : layout.Lawful)
    {maxLength : Nat} {record : R} {bs : Bytes}
    (h : layout.Formed (min maxLength maxWireLength) record bs) {s : FrameStack}
    (hs : s.AtMessage) (more : Bytes) :
    ∃ s', layout.read maxLength layout.blank ⟨s, bs ++ more⟩ =
      ⟨.ofCheck (layout.settle record).1, (layout.settle record).2, ⟨s', more⟩⟩ := by
  cases layout with
  | message type fields settle =>
    obtain ⟨body, rfl, hbody⟩ := h
    obtain ⟨s', hread, -⟩ := Layout.read_message hlawful.2.1
      (fields.reads maxLength hlawful.2.2 hbody) settle record.flags hs more
    exact ⟨s', hread⟩

end Enlistment.Wire
