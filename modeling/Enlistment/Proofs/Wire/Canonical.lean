import Enlistment.Message.Request
import Enlistment.Proofs.Wire.Arrival
import Enlistment.Proofs.Wire.Completion
import Enlistment.Proofs.Wire.Taking
import Enlistment.Proofs.Wire.Spelling

/-!
# Octets in canonical form

Octets are canonical if every truth value is 0 or 1, headers carry no flags but the one of
requests, and nothing is absent that cannot stay absent. This can be told by a scan that never
builds a message. What canonical octets spell is regular, as the record of a message is, and
canonical octets are the encoding of what they spell.
-/

namespace Enlistment.Wire

/-! ## The scan -/

/-- The flag that the header of a type may carry: a request brings deployment info or not. -/
def keptFlags (type : UInt16) : UInt8 :=
  if type = requestLayout.type then deploymentFlag else 0

/-- The octets behind a unit of fixed width. -/
def restFixed? (width : Nat) (bs : Bytes) : Option Bytes :=
  if bs.length < width then none else some (bs.drop width)

/-- The octets behind a truth value, which is 0 or 1. -/
def restFlag? : Bytes → Option Bytes
  | [] => none
  | b :: rest => if b = 0 ∨ b = 1 then some rest else none

/-- The octets behind a list, given what is behind the contents of a list of some length. An
absent list has to be one that stays absent. -/
def restSized? (kept : Bool) (rest? : Nat → Bytes → Option Bytes) (bs : Bytes) : Option Bytes :=
  match decodeLength maxWireLength (int32Of (bs.take 4)) with
  | .error _ => none
  | .ok none => if kept then some (bs.drop 4) else none
  | .ok (some length) => rest? length (bs.drop 4)

/-- The octets behind a number of elements. -/
def restEach? (rest? : Bytes → Option Bytes) : Nat → Bytes → Option Bytes
  | 0, bs => some bs
  | count + 1, bs => (rest? bs).bind (restEach? rest? count)

/-- Whether a text field keeps an absent text. -/
def NullText.isKept : NullText → Bool
  | .keep => true
  | _ => false

/-- The last ordinal before the next field, by the octets of this one. -/
def Field.octetTag : {A : Type} → Field A → Bytes → Int8 → Int8
  | _, .ordinal _ _ _ _, bs, _ => (bs.headD 0).toInt8
  | _, _, _, tag => tag

mutual
/-- The octets behind a message in canonical form. -/
def Layout.canonicalRest? : {R : Type} → Layout R → Bytes → Option Bytes
  | _, .message type fields _, bs =>
    let flags := (bs.drop 5).headD 0
    if flags = 0 ∨ flags = keptFlags type then
      fields.canonicalRest? (-1) (bs.drop headerLength)
    else none
/-- The octets behind fields in canonical form, given the last ordinal before them. -/
def Fields.canonicalRest? : {S : Type} → Fields S → (tag : Int8) → Bytes → Option Bytes
  | _, .nil, _, bs => some bs
  | _, .cons field rest, tag, bs =>
    (field.canonicalRest? tag bs).bind (rest.canonicalRest? (field.octetTag bs tag))
/-- The octets behind a field in canonical form, given the last ordinal before it. -/
def Field.canonicalRest? : {A : Type} → Field A → (tag : Int8) → Bytes → Option Bytes
  | _, .flag, _, bs => restFlag? bs
  | _, .ordinal _ _ _ _, _, bs => restFixed? 1 bs
  | _, .int32, _, bs => restFixed? 4 bs
  | _, .int64, _, bs => restFixed? 8 bs
  | _, .uint128, _, bs => restFixed? 16 bs
  | _, .bytes, _, bs => restSized? false restFixed? bs
  | _, .text onNull, _, bs => restSized? onNull.isKept restFixed? bs
  | _, .longs, _, bs => restSized? false (fun count => restFixed? (8 * count)) bs
  | _, .optional layout, _, bs =>
    if uint16Of (bs.take 2) = nullType then some (bs.drop 2) else layout.canonicalRest? bs
  | _, .required _ layout, _, bs => layout.canonicalRest? bs
  | _, .array layout, _, bs => restSized? true (restEach? layout.canonicalRest?) bs
  | _, .batch layout, _, bs => restSized? false (restEach? layout.canonicalRest?) bs
  | _, .keys layout, _, bs => restSized? true (restEach? layout.canonicalRest?) bs
  | _, .values selector value invocation, tag, bs =>
    if tag = selector then restSized? true (restEach? invocation.canonicalRest?) bs
    else restSized? true (restEach? value.canonicalRest?) bs
end

/-! ## Regular records -/

mutual
/-- Whether a record is as that of a message that is written: no other flag is set, byte strings
are there, and nothing is staged. -/
def Layout.Regular : {R : Type} → Layout R → R → Prop
  | _, .message type fields settle, message =>
    (message.flags = 0 ∨ message.flags = keptFlags type) ∧
      fields.Regular (-1) message.slots ∧ ∃ slots, settle slots = (.ok (), message.slots)
/-- Whether slots are regular, given the last ordinal before them. -/
def Fields.Regular : {S : Type} → Fields S → (tag : Int8) → S → Prop
  | _, .nil, _, _ => True
  | _, .cons field rest, tag, slots =>
    field.Regular tag slots.1 ∧ rest.Regular (field.tag slots.1 tag) slots.2
/-- Whether a slot is regular, given the last ordinal before it. -/
def Field.Regular : {A : Type} → Field A → (tag : Int8) → A → Prop
  | _, .flag, _, _ => True
  | _, .ordinal _ count optional _, _, slot => ordinalAllowed count optional slot = true
  | _, .int32, _, _ => True
  | _, .int64, _, _ => True
  | _, .uint128, _, _ => True
  | _, .bytes, _, slot => slot.isSome = true
  | _, .text onNull, _, slot =>
    slot.staged = none ∧ (slot.text = none → onNull.isKept = true)
  | _, .longs, _, _ => True
  | _, .optional layout, _, slot => ∀ message, slot = some message → layout.Regular message
  | _, .required _ layout, _, slot => layout.Regular slot
  | _, .array layout, _, slot => ∀ items, slot = some items → ∀ item ∈ items, layout.Regular item
  | _, .batch layout, _, slot => slot.staged = none ∧ ∀ item ∈ slot.settled, layout.Regular item
  | _, .keys layout, _, slot =>
    slot = { settled := slot.settled } ∧
      ∀ items, slot.settled = some items → ∀ item ∈ items, layout.Regular item
  | _, .values selector value invocation, tag, slot =>
    slot = { settled := slot.settled } ∧
      (∀ items, slot.settled = some (.inl items) →
        tag ≠ selector ∧ ∀ item ∈ items, value.Regular item) ∧
      (∀ items, slot.settled = some (.inr items) →
        tag = selector ∧ ∀ item ∈ items, invocation.Regular item)
end

mutual
/-- A regular message is ready to be written, with the messages in it. -/
theorem Layout.Regular.prepared : {R : Type} → {layout : Layout R} → {message : R} →
    layout.Regular message → layout.Prepared message
  | _, .message _ fields _, message, h => by
    have hfields : fields.Regular (-1) message.slots := h.2.1
    exact hfields.prepared
/-- Regular fields are ready to be written. -/
theorem Fields.Regular.prepared : {S : Type} → {fields : Fields S} → {tag : Int8} → {slots : S} →
    fields.Regular tag slots → fields.Prepared slots
  | _, .nil, _, _, _ => trivial
  | _, .cons field rest, tag, slots, h => by
    obtain ⟨hready, hprepared⟩ := Field.Regular.prepared h.1
    have hrest : rest.Regular (field.tag slots.1 tag) slots.2 := h.2
    exact ⟨hready, hprepared, hrest.prepared⟩
/-- A regular field is ready to be written. -/
theorem Field.Regular.prepared : {A : Type} → {field : Field A} → {tag : Int8} → {slot : A} →
    field.Regular tag slot → field.ready slot = true ∧ field.Prepared slot
  | _, .flag, _, _, _ => ⟨rfl, trivial⟩
  | _, .ordinal _ _ _ _, _, _, _ => ⟨rfl, trivial⟩
  | _, .int32, _, _, _ => ⟨rfl, trivial⟩
  | _, .int64, _, _, _ => ⟨rfl, trivial⟩
  | _, .uint128, _, _, _ => ⟨rfl, trivial⟩
  | _, .bytes, _, _, h => ⟨h, trivial⟩
  | _, .text _, _, _, _ => ⟨rfl, trivial⟩
  | _, .longs, _, _, _ => ⟨rfl, trivial⟩
  | _, .optional _, _, _, h => ⟨rfl, fun message hmessage =>
    Layout.Regular.prepared (h message hmessage)⟩
  | _, .required _ layout, _, slot, h => by
    have hnested : layout.Regular slot := h
    exact ⟨rfl, hnested.prepared⟩
  | _, .array _, _, _, h => ⟨rfl, fun items hitems item hitem =>
    Layout.Regular.prepared (h items hitems item hitem)⟩
  | _, .batch _, _, _, h => ⟨rfl, fun item hitem => Layout.Regular.prepared (h.2 item hitem)⟩
  | _, .keys _, _, _, h => ⟨by rw [h.1]; rfl, fun items hitems item hitem =>
    Layout.Regular.prepared (h.2 items hitems item hitem)⟩
  | _, .values _ _ _, _, _, h => ⟨rfl,
    fun items hitems item hitem => Layout.Regular.prepared ((h.2.1 items hitems).2 item hitem),
    fun items hitems item hitem => Layout.Regular.prepared ((h.2.2 items hitems).2 item hitem)⟩
end

/-! ## What canonical octets spell -/

/-- A scan that, of octets that begin with `bs`, skips `bs` or fails, and skips it only if `p`
holds. -/
def Skips (rest? : Bytes → Option Bytes) (bs : Bytes) (p : Prop) : Prop :=
  ∀ more rest, rest? (bs ++ more) = some rest → rest = more ∧ p

namespace Skips

variable {bs : Bytes} {p q : Prop}

/-- A statement may say less. -/
theorem imp {rest? : Bytes → Option Bytes} (h : Skips rest? bs p) (himp : p → q) :
    Skips rest? bs q :=
  fun more rest hrest => ⟨(h more rest hrest).1, himp (h more rest hrest).2⟩

/-- A unit of fixed width. -/
theorem fixed {width : Nat} (hlen : bs.length = width) (h : p) : Skips (restFixed? width) bs p := by
  intro more rest hrest
  unfold restFixed? at hrest
  split at hrest
  · cases hrest
  · rw [List.drop_left' hlen] at hrest
    exact ⟨(Option.some.inj hrest).symm, h⟩

/-- A truth value. -/
theorem flag (b : UInt8) : Skips restFlag? [b] ([if b != 0 then 1 else 0] = [b]) := by
  intro more rest hrest
  simp only [List.singleton_append, restFlag?] at hrest
  split at hrest
  · next hb =>
    refine ⟨(Option.some.inj hrest).symm, ?_⟩
    rcases hb with rfl | rfl <;> rfl
  · cases hrest

/-- A unit and then another one. -/
theorem bind {front back : Bytes} {rest? : Bytes → Option Bytes}
    {next? : Bytes → Bytes → Option Bytes} (h : Skips rest? front p)
    (hnext : ∀ more, Skips (next? (front ++ more)) back q) :
    Skips (fun bs => (rest? bs).bind (next? bs)) (front ++ back) (p ∧ q) := by
  intro more rest hrest
  simp only [List.append_assoc] at hrest
  obtain ⟨between, hfront, hback⟩ := Option.bind_eq_some_iff.mp hrest
  obtain ⟨rfl, hp⟩ := h _ _ hfront
  obtain ⟨rfl, hq⟩ := hnext (back ++ more) more rest hback
  exact ⟨rfl, hp, hq⟩

/-- A list behind its length. -/
theorem sized {B : Type} {limit : Nat} (hlimit : limit ≤ maxWireLength) {kept : Bool}
    {rest? : Nat → Bytes → Option Bytes} {spells : List B → Bytes → Prop} {p : List B → Prop}
    {encode : List B → Bytes} (hnil : encode [] = [])
    (h : ∀ items body, spells items body → Skips (rest? items.length) body
      (encode items = body ∧ p items))
    {value : Option (List B)} (hvalue : SpellsSized limit spells value bs) :
    Skips (restSized? kept rest?) bs
      (lengthBytes (value.map List.length) ++ encode (value.getD []) = bs ∧
        (value = none → kept = true) ∧ ∀ items, value = some items → p items) := by
  have hlen : ∀ length, (lengthBytes length).length = 4 := by
    intro length
    cases length <;> exact Bytes.length_littleEndian 4 _
  intro more rest hrest
  cases value with
  | none =>
    obtain rfl : bs = lengthBytes none := hvalue
    simp only [restSized?, List.take_left' (hlen _), decodeLength_lengthBytes_none,
      List.drop_left' (hlen _)] at hrest
    split at hrest
    · next hkept =>
      refine ⟨(Option.some.inj hrest).symm, ?_, fun _ => hkept, fun _ hitems => (nomatch hitems)⟩
      rw [Option.getD_none, hnil, List.append_nil]
      rfl
    · cases hrest
  | some items =>
    obtain ⟨hlength, body, rfl, hitems⟩ := hvalue
    have hwire := Nat.le_trans hlength hlimit
    simp only [restSized?, List.append_assoc, List.take_left' (hlen _),
      decodeLength_lengthBytes_some hwire hwire, List.drop_left' (hlen _)] at hrest
    obtain ⟨rfl, hbody, hp⟩ := h items body hitems more rest hrest
    refine ⟨rfl, ?_, fun hnone => (nomatch hnone), fun items' hsame => ?_⟩
    · rw [Option.getD_some, hbody]
      rfl
    · rwa [← Option.some.inj hsame]

/-- A byte string. -/
theorem bytes {limit : Nat} (hlimit : limit ≤ maxWireLength) {kept : Bool} {value : Option Bytes}
    (hvalue : SpellsSized limit Eq value bs) :
    Skips (restSized? kept restFixed?) bs
      (sizedBytes value = bs ∧ (value = none → kept = true)) := by
  have hbody : ∀ items body : Bytes, items = body →
      Skips (restFixed? items.length) body (items = body ∧ True) :=
    fun items body hsame => fixed (congrArg List.length hsame.symm) ⟨hsame, trivial⟩
  have hsized : Skips (restSized? kept restFixed?) bs
      (lengthBytes (value.map List.length) ++ id (value.getD []) = bs ∧
        (value = none → kept = true) ∧ ∀ items, value = some items → True) :=
    sized hlimit rfl hbody hvalue
  exact hsized.imp fun h => ⟨h.1, h.2.1⟩

section

variable {R : Type} {rest? : Bytes → Option Bytes} {spells : R → Bytes → Prop} {encode : R → Bytes}
  {p : R → Prop} (h : ∀ item bs, spells item bs → Skips rest? bs (encode item = bs ∧ p item))
include h

/-- Elements in a row. -/
theorem each {items : List R} (hitems : SpellsEach spells items bs) :
    Skips (restEach? rest? items.length) bs
      (items.flatMap encode = bs ∧ ∀ item ∈ items, p item) := by
  induction items generalizing bs with
  | nil =>
    obtain rfl : bs = [] := hitems
    intro more rest hrest
    exact ⟨(Option.some.inj hrest).symm, rfl, fun _ hitem => absurd hitem List.not_mem_nil⟩
  | cons item items ih =>
    obtain ⟨front, back, rfl, hfront, hback⟩ := hitems
    have hboth : Skips (restEach? rest? (items.length + 1)) (front ++ back) _ :=
      bind (h item front hfront) fun _ => ih hback
    refine hboth.imp fun ⟨⟨hencode, hitem⟩, hencodes, hrest⟩ => ⟨?_, ?_⟩
    · rw [List.flatMap_cons, hencode, hencodes]
    · exact List.forall_mem_cons.mpr ⟨hitem, hrest⟩

/-- An array of messages. -/
theorem array {limit : Nat} (hlimit : limit ≤ maxWireLength) {kept : Bool}
    {value : Option (List R)} (hvalue : SpellsSized limit (SpellsEach spells) value bs) :
    Skips (restSized? kept (restEach? rest?)) bs
      (arrayBytes encode value = bs ∧ (value = none → kept = true) ∧
        ∀ items, value = some items → ∀ item ∈ items, p item) :=
  sized hlimit rfl (fun _ _ hitems => each h hitems) hvalue

end

end Skips

/-- Settling leaves ordinals alone. -/
theorem Field.tag_handedOver {A : Type} (field : Field A) (slot : A) (tag : Int8) :
    field.tag (field.handedOver slot) tag = field.tag slot tag := by
  cases field <;> rfl

/-- The ordinal of a field is the one that its octets spell. -/
theorem Field.octetTag_of_spells {A : Type} (field : Field A) {limit : Nat} {tag : Int8} {slot : A}
    {bs : Bytes} (h : field.Spells limit tag slot bs) (more : Bytes) :
    field.octetTag (bs ++ more) tag = field.tag slot tag := by
  cases field with
  | ordinal name count optional blank =>
    obtain ⟨rfl, -⟩ : bs = [slot.toUInt8] ∧ _ := h
    rfl
  | _ => rfl

/-- A message that is spelled is told from an absent one. -/
theorem Layout.type_of_spells {R : Type} (layout : Layout R) (hlawful : layout.Lawful) {limit : Nat}
    {message : R} {bs : Bytes} (h : layout.Spells limit message bs) (more : Bytes) :
    uint16Of ((bs ++ more).take 2) ≠ nullType := by
  cases layout with
  | message type fields settle =>
    obtain ⟨slots, body, rfl, -⟩ := h
    have hlen : (Bytes.littleEndian 2 type.toNat).length = 2 := Bytes.length_littleEndian 2 _
    simp only [headerBytes, List.append_assoc]
    rw [List.take_left' hlen, uint16Of_littleEndian]
    exact hlawful.1

/-- The flags that a message is spelled with. -/
theorem headerBytes_flags (type : UInt16) (fieldCount : Nat) (flags : UInt8) (bs : Bytes) :
    ((headerBytes type fieldCount flags ++ bs).drop 5).headD 0 = flags := by
  have hlen : (Bytes.littleEndian 2 type.toNat ++
      Bytes.littleEndian 2 protocolVersion.toNat ++ [UInt8.ofNat fieldCount]).length = 5 := by
    simp only [List.length_append, Bytes.length_littleEndian, List.length_singleton]
  have hsplit : headerBytes type fieldCount flags ++ bs = (Bytes.littleEndian 2 type.toNat ++
      Bytes.littleEndian 2 protocolVersion.toNat ++ [UInt8.ofNat fieldCount]) ++ (flags :: bs) := by
    simp only [headerBytes, List.append_assoc, List.cons_append, List.nil_append]
  rw [hsplit, List.drop_left' hlen]
  rfl

section

variable {V I : Type} (selector : Int8) (value : Layout V) (invocation : Layout I)

/-- Values are encoded as an array of values. -/
theorem Field.encode_values (items : Option (List V)) :
    (Field.values selector value invocation).encode { settled := items.map .inl } =
      arrayBytes value.encode items := by
  cases items <;> rfl

/-- Invocations are encoded as an array of invocations. -/
theorem Field.encode_invocations (items : Option (List I)) :
    (Field.values selector value invocation).encode { settled := items.map .inr } =
      arrayBytes invocation.encode items := by
  cases items <;> rfl

end

mutual
/-- Canonical octets that spell a message are its encoding, and it is regular. -/
theorem Layout.skips {limit : Nat} (hlimit : limit ≤ maxWireLength) : {R : Type} →
    (layout : Layout R) → layout.Lawful → (message : R) → (bs : Bytes) →
    layout.Spells limit message bs →
    Skips layout.canonicalRest? bs (layout.encode message = bs ∧ layout.Regular message)
  | _, .message type fields settle, hlawful, message, bs, h => by
    obtain ⟨slots, body, rfl, hslots, hsettle, hsettled⟩ := h
    have hlen : (headerBytes type fields.count message.flags).length = headerLength := by
      simp [headerBytes, headerLength]
    intro more rest hrest
    simp only [Layout.canonicalRest?, List.append_assoc, headerBytes_flags,
      List.drop_left' hlen] at hrest
    split at hrest
    · next hflags =>
      obtain ⟨rfl, hencode, hregular⟩ := fields.skips hlimit hlawful.2.2 hslots more rest hrest
      rw [← hsettled] at hencode hregular
      exact ⟨rfl, congrArg (_ ++ ·) hencode, hflags, hregular, slots, hsettle⟩
    · cases hrest
/-- Canonical octets that spell fields are their encoding, and they are regular. -/
theorem Fields.skips {limit : Nat} (hlimit : limit ≤ maxWireLength) : {S : Type} →
    (fields : Fields S) → fields.Lawful → {tag : Int8} → {slots : S} → {bs : Bytes} →
    fields.Spells limit tag slots bs →
    Skips (fields.canonicalRest? tag) bs
      (fields.encode (fields.handedOver slots) = bs ∧ fields.Regular tag (fields.handedOver slots))
  | _, .nil, _, _, _, _, h => by
    obtain rfl := h
    intro more rest hrest
    exact ⟨(Option.some.inj hrest).symm, rfl, trivial⟩
  | _, .cons field rest, hlawful, tag, slots, _, h => by
    obtain ⟨front, back, rfl, hfield, hrest⟩ := h
    have hback : ∀ more, Skips (rest.canonicalRest? (field.octetTag (front ++ more) tag)) back
        (rest.encode (rest.handedOver slots.2) = back ∧
          rest.Regular (field.tag slots.1 tag) (rest.handedOver slots.2)) := by
      intro more
      rw [field.octetTag_of_spells hfield]
      exact rest.skips hlimit hlawful.2 hrest
    have hboth : Skips (fun bs => (field.canonicalRest? tag bs).bind
        (rest.canonicalRest? (field.octetTag bs tag))) (front ++ back) _ :=
      Skips.bind (field.skips hlimit hlawful.1 hfield) hback
    refine hboth.imp fun ⟨⟨hfront, hfieldRegular⟩, hback, hrestRegular⟩ => ⟨?_, hfieldRegular, ?_⟩
    · rw [← hfront, ← hback]
      rfl
    · rwa [← field.tag_handedOver] at hrestRegular
/-- Canonical octets that spell a field are its encoding, and it is regular. -/
theorem Field.skips {limit : Nat} (hlimit : limit ≤ maxWireLength) : {A : Type} →
    (field : Field A) → field.Lawful → {tag : Int8} → {slot : A} → {bs : Bytes} →
    field.Spells limit tag slot bs →
    Skips (field.canonicalRest? tag) bs
      (field.encode (field.handedOver slot) = bs ∧ field.Regular tag (field.handedOver slot))
  | _, .flag, _, _, _, _, h => by
    obtain ⟨b, rfl, rfl⟩ := h
    exact (Skips.flag b).imp fun h => ⟨h, trivial⟩
  | _, .ordinal _ _ _ _, _, _, _, _, h => .fixed (congrArg List.length h.1) ⟨h.1.symm, h.2⟩
  | _, .int32, _, _, _, _, h =>
    .fixed (h ▸ Bytes.length_littleEndian 4 _) ⟨h.symm, trivial⟩
  | _, .int64, _, _, _, _, h =>
    .fixed (h ▸ Bytes.length_littleEndian 8 _) ⟨h.symm, trivial⟩
  | _, .uint128, _, _, _, _, h =>
    .fixed (h ▸ Bytes.length_littleEndian 16 _) ⟨h.symm, trivial⟩
  | _, .bytes, _, _, slot, _, h => by
    refine (Skips.bytes hlimit h).imp fun ⟨hencode, hkept⟩ => ⟨hencode, ?_⟩
    cases hslot : slot with
    | none => cases hkept hslot
    | some bs => rfl
  | _, .text onNull, _, _, slot, _, h => by
    obtain ⟨value, hvalue, hslot⟩ := h
    refine (Skips.bytes hlimit hvalue).imp fun ⟨hencode, hkept⟩ => ?_
    cases value with
    | some t =>
      obtain rfl : { text := some t } = slot := by cases onNull <;> exact Option.some.inj hslot
      exact ⟨hencode, rfl, fun hnone => (nomatch hnone)⟩
    | none =>
      cases onNull with
      | keep =>
        obtain rfl : {} = slot := Option.some.inj hslot
        exact ⟨hencode, rfl, fun _ => rfl⟩
      | _ => cases hkept rfl
  | _, .longs, _, _, _, _, h => by
    obtain ⟨value, hvalue, rfl⟩ := h
    have hbody : ∀ (items : List Int64) body, body = items.flatMap int64Bytes →
        Skips (restFixed? (8 * items.length)) body (items.flatMap int64Bytes = body ∧ True) :=
      fun items body hsame => .fixed (hsame ▸ length_int64Bytes items) ⟨hsame.symm, trivial⟩
    refine (Skips.sized hlimit List.flatMap_nil hbody hvalue).imp fun ⟨hencode, hkept, _⟩ => ?_
    cases value with
    | none => cases hkept rfl
    | some items => exact ⟨hencode, trivial⟩
  | _, .optional layout, hlawful, _, slot, bs, h => by
    intro more rest hrest
    simp only [Field.canonicalRest?] at hrest
    cases slot with
    | none =>
      obtain rfl : bs = nullBytes := h
      have hlen : nullBytes.length = 2 := Bytes.length_littleEndian 2 _
      have htype : uint16Of nullBytes = nullType := uint16Of_littleEndian nullType
      rw [List.take_left' hlen, if_pos htype, List.drop_left' hlen] at hrest
      exact ⟨(Option.some.inj hrest).symm, rfl, fun _ hmessage => (nomatch hmessage)⟩
    | some message =>
      rw [if_neg (layout.type_of_spells hlawful h more)] at hrest
      obtain ⟨hmore, hencode, hregular⟩ := layout.skips hlimit hlawful message bs h more rest hrest
      refine ⟨hmore, hencode, fun message' hsame => ?_⟩
      rwa [← Option.some.inj hsame]
  | _, .required _ layout, hlawful, _, slot, bs, h => layout.skips hlimit hlawful slot bs h
  | _, .array layout, hlawful, _, _, _, h =>
    (Skips.array (layout.skips hlimit hlawful) hlimit h).imp fun h => ⟨h.1, h.2.2⟩
  | _, .batch layout, hlawful, _, _, _, h => by
    obtain ⟨value, hvalue, rfl⟩ := h
    refine (Skips.array (layout.skips hlimit hlawful) hlimit hvalue).imp
      fun ⟨hencode, hkept, hitems⟩ => ?_
    cases value with
    | none => cases hkept rfl
    | some items => exact ⟨hencode, rfl, hitems items rfl⟩
  | _, .keys layout, hlawful, _, _, _, h =>
    (Skips.array (layout.skips hlimit hlawful) hlimit h.1).imp fun h => ⟨h.1, rfl, h.2.2⟩
  | _, .values selector value invocation, hlawful, tag, slot, bs, h => by
    intro more rest hrest
    by_cases htag : tag = selector
    · simp only [Field.Spells, Field.canonicalRest?, if_pos htag] at h hrest
      obtain ⟨hitems, hslot⟩ := h
      obtain ⟨hmore, hencode, -, hregular⟩ :=
        Skips.array (invocation.skips hlimit hlawful.2) hlimit hitems more rest hrest
      rw [hslot]
      refine ⟨hmore, (Field.encode_invocations ..).trans hencode, rfl, fun items hsettled => ?_,
        fun items hsettled => ⟨htag, ?_⟩⟩ <;>
        obtain ⟨found, hfound, hsame⟩ := Option.map_eq_some_iff.mp hsettled
      · cases hsame
      · obtain rfl := Sum.inr.inj hsame
        exact hregular found hfound
    · simp only [Field.Spells, Field.canonicalRest?, if_neg htag] at h hrest
      obtain ⟨hitems, hslot⟩ := h
      obtain ⟨hmore, hencode, -, hregular⟩ :=
        Skips.array (value.skips hlimit hlawful.1) hlimit hitems more rest hrest
      rw [hslot]
      have hvalues : ((Field.values selector value invocation).handedOver
          { inboundValues := slot.inboundValues }) =
            { settled := slot.inboundValues.map .inl } := by
        cases slot.inboundValues <;> rfl
      rw [hvalues]
      refine ⟨hmore, (Field.encode_values ..).trans hencode, rfl,
        fun items hsettled => ⟨htag, ?_⟩, fun items hsettled => ?_⟩ <;>
        obtain ⟨found, hfound, hsame⟩ := Option.map_eq_some_iff.mp hsettled
      · obtain rfl := Sum.inl.inj hsame
        exact hregular found hfound
      · cases hsame
end

/-! ## Encodings are canonical -/

/-- A unit of fixed width is skipped. -/
theorem restFixed?_append {width : Nat} {bs : Bytes} (hlen : bs.length = width) (more : Bytes) :
    restFixed? width (bs ++ more) = some more := by
  have hlong : ¬ (bs ++ more).length < width := by
    rw [List.length_append]
    omega
  rw [restFixed?, if_neg hlong, List.drop_left' hlen]

/-- A list behind its length is skipped if its contents are. -/
theorem restSized?_append {B : Type} {kept : Bool} {rest? : Nat → Bytes → Option Bytes}
    (encode : List B → Bytes) (hnil : encode [] = []) (value : Option (List B)) {more : Bytes}
    (hkept : value = none → kept = true)
    (h : ∀ items, value = some items → items.length ≤ maxWireLength ∧
      rest? items.length (encode items ++ more) = some more) :
    restSized? kept rest? (lengthBytes (value.map List.length) ++ encode (value.getD []) ++ more) =
      some more := by
  have hlen : ∀ length, (lengthBytes length).length = 4 := by
    intro length
    cases length <;> exact Bytes.length_littleEndian 4 _
  cases value with
  | none =>
    simp only [restSized?, Option.map_none, Option.getD_none, hnil, List.append_nil,
      List.take_left' (hlen _), decodeLength_lengthBytes_none, List.drop_left' (hlen _), hkept rfl,
      if_true]
  | some items =>
    obtain ⟨hwire, hrest⟩ := h items rfl
    simp only [restSized?, Option.map_some, Option.getD_some, List.append_assoc,
      List.take_left' (hlen _), decodeLength_lengthBytes_some hwire hwire, List.drop_left' (hlen _),
      hrest]

/-- A byte string is skipped. -/
theorem restSized?_sizedBytes {kept : Bool} {value : Option Bytes} {more : Bytes}
    (hkept : value = none → kept = true)
    (h : ∀ bs, value = some bs → bs.length ≤ maxWireLength) :
    restSized? kept restFixed? (sizedBytes value ++ more) = some more :=
  restSized?_append id rfl value hkept fun bs hbs => ⟨h bs hbs, restFixed?_append rfl more⟩

section

variable {R : Type} {rest? : Bytes → Option Bytes} {encode : R → Bytes}

/-- Elements are skipped one after the other. -/
theorem restEach?_flatMap {items : List R}
    (h : ∀ item ∈ items, ∀ more, rest? (encode item ++ more) = some more) (more : Bytes) :
    restEach? rest? items.length (items.flatMap encode ++ more) = some more := by
  induction items with
  | nil => rfl
  | cons item items ih =>
    obtain ⟨hitem, hitems⟩ := List.forall_mem_cons.mp h
    rw [List.flatMap_cons, List.append_assoc, List.length_cons, restEach?, hitem, Option.bind_some,
      ih hitems]

/-- An array of messages is skipped. -/
theorem restSized?_arrayBytes {kept : Bool} {value : Option (List R)} {more : Bytes}
    (hkept : value = none → kept = true)
    (h : ∀ items, value = some items → items.length ≤ maxWireLength ∧
      ∀ item ∈ items, ∀ more, rest? (encode item ++ more) = some more) :
    restSized? kept (restEach? rest?) (arrayBytes encode value ++ more) = some more :=
  restSized?_append (fun items => items.flatMap encode) rfl value hkept
    fun items hitems => ⟨(h items hitems).1, restEach?_flatMap (h items hitems).2 more⟩

end

mutual
/-- The encoding of a regular message is canonical. -/
theorem Layout.canonicalRest?_encode : {R : Type} → (layout : Layout R) → layout.Lawful →
    {message : R} → layout.Regular message → layout.Within maxWireLength message →
    ∀ more, layout.canonicalRest? (layout.encode message ++ more) = some more
  | _, .message type fields _, hlawful, message, hregular, hwithin, more => by
    have hlen : (headerBytes type fields.count message.flags).length = headerLength := by
      simp [headerBytes, headerLength]
    simp only [Layout.canonicalRest?, Layout.encode, List.append_assoc, headerBytes_flags,
      List.drop_left' hlen, if_pos hregular.1]
    exact fields.canonicalRest?_encode hlawful.2.2 hregular.2.1 hwithin more
/-- The encoding of regular fields is canonical. -/
theorem Fields.canonicalRest?_encode : {S : Type} → (fields : Fields S) → fields.Lawful →
    {tag : Int8} → {slots : S} → fields.Regular tag slots → fields.Within maxWireLength slots →
    ∀ more, fields.canonicalRest? tag (fields.encode slots ++ more) = some more
  | _, .nil, _, _, _, _, _, _ => rfl
  | _, .cons field rest, hlawful, tag, slots, hregular, hwithin, more => by
    have htag : field.octetTag (field.encode slots.1 ++ (rest.encode slots.2 ++ more)) tag =
        field.tag slots.1 tag := by
      cases field <;> rfl
    rw [Fields.encode, List.append_assoc, Fields.canonicalRest?, htag,
      field.canonicalRest?_encode hlawful.1 hregular.1 hwithin.1, Option.bind_some,
      rest.canonicalRest?_encode hlawful.2 hregular.2 hwithin.2]
/-- The encoding of a regular field is canonical. -/
theorem Field.canonicalRest?_encode : {A : Type} → (field : Field A) → field.Lawful →
    {tag : Int8} → {slot : A} → field.Regular tag slot → field.Within maxWireLength slot →
    ∀ more, field.canonicalRest? tag (field.encode slot ++ more) = some more
  | _, .flag, _, _, slot, _, _, _ => by cases slot <;> rfl
  | _, .ordinal _ _ _ _, _, _, _, _, _, more => restFixed?_append rfl more
  | _, .int32, _, _, _, _, _, more => restFixed?_append (Bytes.length_littleEndian 4 _) more
  | _, .int64, _, _, _, _, _, more => restFixed?_append (Bytes.length_littleEndian 8 _) more
  | _, .uint128, _, _, _, _, _, more => restFixed?_append (Bytes.length_littleEndian 16 _) more
  | _, .bytes, _, _, slot, hregular, hwithin, _ => by
    refine restSized?_sizedBytes (fun hnone => ?_) hwithin
    rw [hnone] at hregular
    cases hregular
  | _, .text _, _, _, slot, hregular, hwithin, _ => by
    refine restSized?_sizedBytes (fun hnone => ?_) fun bs hbs => ?_
    · exact hregular.2 (Option.map_eq_none_iff.mp hnone)
    · obtain ⟨s, hs, rfl⟩ := Option.map_eq_some_iff.mp hbs
      exact hwithin s hs
  | _, .longs, _, _, slot, _, hwithin, more =>
    restSized?_append (fun items => items.flatMap int64Bytes) rfl (some slot)
      (fun hnone => (nomatch hnone)) fun items hitems => by
        obtain rfl := Option.some.inj hitems
        exact ⟨hwithin, restFixed?_append (length_int64Bytes _) more⟩
  | _, .optional layout, hlawful, _, slot, hregular, hwithin, more => by
    cases slot with
    | none =>
      have hlen : nullBytes.length = 2 := Bytes.length_littleEndian 2 _
      have htype : uint16Of nullBytes = nullType := uint16Of_littleEndian nullType
      simp only [Field.canonicalRest?, Field.encode, List.take_left' hlen, htype, if_true,
        List.drop_left' hlen]
    | some message =>
      obtain ⟨-, hnull, -⟩ := (layout.announces hlawful message).take_two more
      exact (if_neg hnull).trans (layout.canonicalRest?_encode hlawful (hregular message rfl)
        (hwithin message rfl) more)
  | _, .required _ layout, hlawful, _, _, hregular, hwithin, more =>
    layout.canonicalRest?_encode hlawful hregular hwithin more
  | _, .array layout, hlawful, _, _, hregular, hwithin, _ =>
    restSized?_arrayBytes (fun _ => rfl) fun items hitems => ⟨(hwithin items hitems).1,
      fun item hitem => layout.canonicalRest?_encode hlawful (hregular items hitems item hitem)
        ((hwithin items hitems).2 item hitem)⟩
  | _, .batch layout, hlawful, _, slot, hregular, hwithin, _ =>
    restSized?_arrayBytes (fun hnone => (nomatch hnone)) fun items hitems => by
      obtain rfl := Option.some.inj hitems
      exact ⟨hwithin.1, fun item hitem => layout.canonicalRest?_encode hlawful
        (hregular.2 item hitem) (hwithin.2 item hitem)⟩
  | _, .keys layout, hlawful, _, _, hregular, hwithin, _ =>
    restSized?_arrayBytes (fun _ => rfl) fun items hitems => ⟨(hwithin items hitems).1,
      fun item hitem => layout.canonicalRest?_encode hlawful (hregular.2 items hitems item hitem)
        ((hwithin items hitems).2 item hitem)⟩
  | _, .values selector value invocation, hlawful, tag, slot, hregular, hwithin, more => by
    obtain ⟨-, hvalues, hinvocations⟩ := hregular
    simp only [Field.canonicalRest?, Field.encode]
    rcases hsettled : slot.settled with _ | items | items
    · have habsent : ∀ rest?, restSized? true rest? (lengthBytes none ++ more) = some more :=
        fun rest? => restSized?_append id rfl (none : Option Bytes) (fun _ => rfl)
          fun _ hitems => (nomatch hitems)
      split <;> exact habsent _
    · obtain ⟨htag, hitems⟩ := hvalues items hsettled
      obtain ⟨hlength, hwithin⟩ := hwithin.1 items hsettled
      rw [if_neg htag]
      refine restSized?_arrayBytes (fun _ => rfl) fun items' hsame => ?_
      obtain rfl := Option.some.inj hsame
      exact ⟨hlength, fun item hitem =>
        value.canonicalRest?_encode hlawful.1 (hitems item hitem) (hwithin item hitem)⟩
    · obtain ⟨htag, hitems⟩ := hinvocations items hsettled
      obtain ⟨hlength, hwithin⟩ := hwithin.2 items hsettled
      rw [if_pos htag]
      refine restSized?_arrayBytes (fun _ => rfl) fun items' hsame => ?_
      obtain rfl := Option.some.inj hsame
      exact ⟨hlength, fun item hitem =>
        invocation.canonicalRest?_encode hlawful.2 (hitems item hitem) (hwithin item hitem)⟩
end

end Enlistment.Wire
