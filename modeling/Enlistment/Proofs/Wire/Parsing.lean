import Enlistment.Proofs.Wire.Taking
import Enlistment.Proofs.Wire.Spelling

/-!
# Reading what is spelled

A reader that completes a message, in one call and from fresh frames, has taken octets that
spell it. A statement about a reader says from which frames it starts, how the octets it takes
spell what it gives, and which frames it leaves.
-/

namespace Enlistment.Wire

mutual
/-- Whether settling a message does nothing but to hand over its rows, and so with the
messages in it. -/
def Layout.HandsOver : {R : Type} → Layout R → Prop
  | _, .message _ fields settle =>
    (∀ slots settled, settle slots = (.ok (), settled) → settled = fields.handedOver slots) ∧
      fields.HandOver
/-- Whether the messages in fields hand over their rows. -/
def Fields.HandOver : {S : Type} → Fields S → Prop
  | _, .nil => True
  | _, .cons field rest => field.HandsOver ∧ rest.HandOver
/-- Whether the messages in a field hand over their rows. -/
def Field.HandsOver : {A : Type} → Field A → Prop
  | _, .flag => True
  | _, .ordinal _ _ _ _ => True
  | _, .int32 => True
  | _, .int64 => True
  | _, .uint128 => True
  | _, .bytes => True
  | _, .text _ => True
  | _, .longs => True
  | _, .optional layout => layout.HandsOver
  | _, .required _ layout => layout.HandsOver
  | _, .array layout => layout.HandsOver
  | _, .batch layout => layout.HandsOver
  | _, .keys layout => layout.HandsOver
  | _, .values _ value invocation => value.HandsOver ∧ invocation.HandsOver
end

/-! ## Units -/

/-- A unit is complete exactly if its condition holds. -/
theorem Progress.ofComplete_eq_advance {complete : Bool} :
    ofComplete complete = advance ↔ complete = true := by
  cases complete <;> simp [ofComplete]

/-- A reader that, whenever it completes from frames with `start` and into `slot`, has taken
octets that spell its result and left frames with `finish`. -/
def Parses {A : Type} (start : FrameStack → Prop) (read : A → Source → Reading A) (slot : A)
    (spells : A → Bytes → Prop) (finish : FrameStack → Prop) : Prop :=
  ∀ src result src', start src.stack → read slot src = ⟨.advance, result, src'⟩ →
    ∃ bs, src.input = bs ++ src'.input ∧ spells result bs ∧ finish src'.stack

namespace Parses

variable {A : Type} {start finish : FrameStack → Prop} {limit maxLength : Nat}

/-- A unit of fixed width. -/
theorem fixed {width : Nat} {decode : Bytes → A} {slot : A} :
    Parses start (readFixed width decode) slot (fun result bs => bs.length = width ∧
      decode bs = result) start := by
  intro src result src' hs h
  unfold readFixed at h
  split at h
  · cases h
  · next hlong =>
    simp only [Reading.mk.injEq, true_and] at h
    obtain ⟨rfl, rfl⟩ := h
    refine ⟨src.input.take width, (List.take_append_drop ..).symm, ⟨?_, rfl⟩, hs⟩
    rw [List.length_take]
    omega

/-- A field of fixed width. -/
theorem octets {width : Nat} {decode : Bytes → A} {slot : A} {spells : A → Bytes → Prop}
    (h : ∀ bs, bs.length = width → spells (decode bs) bs) :
    Parses FrameStack.AtField (readFixed width decode) slot spells FrameStack.Fresh := by
  intro src result src' hs hread
  obtain ⟨bs, hbs, ⟨hlen, rfl⟩, hs'⟩ := fixed src result src' hs hread
  exact ⟨bs, hbs, h bs hlen, hs'.fresh⟩

/-- A truth value. -/
theorem flag {slot : Bool} :
    Parses FrameStack.AtField readBool slot (fun result bs => ∃ b, bs = [b] ∧ result = (b != 0))
      FrameStack.Fresh := by
  refine octets fun bs hlen => ?_
  obtain ⟨b, rfl⟩ := List.length_eq_one_iff.mp hlen
  exact ⟨b, rfl, rfl⟩

/-- An ordinal. -/
theorem ordinal {name : String} {count : Nat} {optional : Bool} {slot : Int8} :
    Parses FrameStack.AtField (readOrdinal name count optional) slot
      (fun result bs => bs = [result.toUInt8] ∧ ordinalAllowed count optional result = true)
      FrameStack.Fresh := by
  have hoctet : Parses FrameStack.AtField readInt8 slot (fun result bs => bs = [result.toUInt8])
      FrameStack.Fresh := by
    refine octets fun bs hlen => ?_
    obtain ⟨b, rfl⟩ := List.length_eq_one_iff.mp hlen
    rfl
  intro src result src' hs h
  simp only [readOrdinal] at h
  split at h
  · cases h
  · next hallowed =>
    obtain ⟨bs, hbs, hspells, hs'⟩ := hoctet src result src' hs h
    rw [h] at hallowed
    refine ⟨bs, hbs, ⟨hspells, ?_⟩, hs'⟩
    simpa using hallowed

/-- A unit whose slot is made of the slot of another one. -/
theorem map {B : Type} {read : A → Source → Reading A} {slot : A} {read' : B → Source → Reading B}
    {slot' : B} {spells : A → Bytes → Prop} {spells' : B → Bytes → Prop}
    (h : Parses start read slot spells finish) (f : A → B)
    (hread : ∀ src, read' slot' src = (read slot src).map f)
    (hspells : ∀ a bs, spells a bs → spells' (f a) bs) :
    Parses start read' slot' spells' finish := by
  intro src result src' hs hresult
  rw [hread] at hresult
  rcases hr : read slot src with ⟨progress, a, src''⟩
  rw [hr] at hresult
  simp only [Reading.map, Reading.mk.injEq] at hresult
  obtain ⟨rfl, rfl, rfl⟩ := hresult
  obtain ⟨bs, hbs, ha, hs'⟩ := h _ _ _ hs hr
  exact ⟨bs, hbs, hspells a bs ha, hs'⟩

/-- A list behind its length. -/
theorem sized {B : Type} {what : String} {fill : Nat → List B → Source → Reading (List B)}
    {slot : Option (List B)} {spells : List B → Bytes → Prop}
    (h : ∀ n, Parses FrameStack.AtContents (fill n) []
      (fun items body => items.length = n ∧ spells items body) FrameStack.Fresh) :
    Parses FrameStack.AtField (readSized maxLength what [] fill) slot
      (SpellsSized (min maxLength maxWireLength) spells) FrameStack.Fresh := by
  intro src result src' hs hread
  simp only [readSized, hs.fieldStarted, Bool.false_eq_true, if_false] at hread
  split at hread
  · cases hread
  · next hlong =>
    have hlen : (src.input.take 4).length = 4 := by
      rw [List.length_take]
      omega
    have hsplit : src.input = src.input.take 4 ++ src.input.drop 4 :=
      (List.take_append_drop ..).symm
    split at hread
    · cases hread
    · next hlength =>
      obtain ⟨hbs, -⟩ := decodeLength_ok hlen hlength
      simp only [Reading.mk.injEq, true_and] at hread
      obtain ⟨rfl, rfl⟩ := hread
      exact ⟨_, hsplit, hbs, hs.fresh⟩
    · next n hlength =>
      obtain ⟨hbs, hn⟩ := decodeLength_ok hlen hlength
      let inside : FrameStack :=
        src.stack.modifyTop fun f => { f with fieldStarted := true, length := n }
      have hfill : (fill n [] ⟨inside, src.input.drop 4⟩).map some =
          ⟨.advance, result, src'⟩ := hread
      rcases hr : fill n [] ⟨inside, src.input.drop 4⟩ with ⟨progress, items, src''⟩
      rw [hr] at hfill
      simp only [Reading.map, Reading.mk.injEq] at hfill
      obtain ⟨rfl, rfl, rfl⟩ := hfill
      obtain ⟨body, hbody, ⟨hcount, hspells⟩, hs'⟩ :=
        h n ⟨inside, src.input.drop 4⟩ items src'' ⟨hs.messageStarted, hs.position, hs.fresh⟩ hr
      refine ⟨src.input.take 4 ++ body, ?_, ⟨?_, body, ?_, hspells⟩, hs'⟩
      · rw [List.append_assoc, ← show src.input.drop 4 = body ++ src''.input from hbody]
        exact hsplit
      · rw [hcount]
        exact hn n rfl
      · rw [hcount, ← hbs]

/-- A byte string. -/
theorem bytes {slot : Option Bytes} :
    Parses FrameStack.AtField (readBytes maxLength) slot
      (SpellsSized (min maxLength maxWireLength) Eq) FrameStack.Fresh := by
  refine sized fun n src result src' hs h => ?_
  simp only [fillBytes, List.length_nil, Nat.not_lt_zero, if_false, List.nil_append, Nat.sub_zero,
    Reading.mk.injEq, Progress.ofComplete_eq_advance, decide_eq_true_eq] at h
  obtain ⟨hlen, rfl, rfl⟩ := h
  exact ⟨_, (List.take_append_drop ..).symm, ⟨hlen, rfl⟩, hs.fresh⟩

/-- An array of numbers. -/
theorem longs {slot : Option (List Int64)} :
    Parses FrameStack.AtField (readLongs maxLength) slot
      (SpellsSized (min maxLength maxWireLength) fun items body =>
        body = items.flatMap int64Bytes) FrameStack.Fresh := by
  refine sized fun n src result src' hs h => ?_
  simp only [fillLongs, List.length_nil, List.nil_append, Nat.sub_zero, Reading.mk.injEq,
    length_takeLongs, Progress.ofComplete_eq_advance, decide_eq_true_eq] at h
  obtain ⟨hcomplete, rfl, rfl⟩ := h
  have hcount : min n (src.input.length / 8) = n := by omega
  rw [hcount]
  refine ⟨src.input.take (8 * n), (List.take_append_drop ..).symm, ⟨length_takeLongs .., ?_⟩, hs.fresh⟩
  rw [flatMap_takeLongs (by omega)]

/-- A text field. -/
theorem text {onNull : NullText} {slot : TextSlot} :
    Parses FrameStack.AtField (readTextField maxLength onNull) slot
      (fun result bs => ∃ value : Option String,
        SpellsSized (min maxLength maxWireLength) Eq (value.map Bytes.ofText) bs ∧
          onNull.slot? value = some result) FrameStack.Fresh := by
  intro src result src' hs h
  rcases hr : readBytes maxLength slot.staged src with ⟨_ | _ | e, _ | content, src''⟩ <;>
    simp only [readTextField, readText, hr] at h
  · obtain ⟨bs, hbs, hspells, hs'⟩ := bytes src none src'' hs hr
    cases onNull with
    | refuse fault => cases h
    | _ =>
      simp only [Reading.mk.injEq, true_and] at h
      obtain ⟨rfl, rfl⟩ := h
      exact ⟨bs, hbs, ⟨none, hspells, rfl⟩, hs'⟩
  · obtain ⟨bs, hbs, hspells, hs'⟩ := bytes src (some content) src'' hs hr
    cases htext : content.toText? with
    | none => simp [htext] at h
    | some t =>
      simp only [htext, Reading.mk.injEq, true_and] at h
      obtain ⟨rfl, rfl⟩ := h
      refine ⟨bs, hbs, ⟨some t, ?_, by cases onNull <;> rfl⟩, hs'⟩
      rw [Option.map_some, Bytes.ofText_of_toText? htext]
      exact hspells
  all_goals simp at h

section

variable {R : Type} {create : UInt16 → Option R} {read : R → Source → Reading R} {blank : R}
  {spells : R → Bytes → Prop}

/-- A nested message. -/
theorem nested (h : Parses FrameStack.AtMessage read blank spells FrameStack.Fresh) :
    Parses FrameStack.Fresh (readNested read) blank spells FrameStack.Fresh := by
  intro src result src' hs hread
  rcases hr : read blank { src with stack := src.stack.enter } with ⟨progress, message, src''⟩
  simp only [readNested, hr, Reading.mk.injEq] at hread
  obtain ⟨rfl, rfl, rfl⟩ := hread
  obtain ⟨bs, hbs, hspells, hs'⟩ := h _ _ _ hs.enter hr
  exact ⟨bs, hbs, hspells, hs'.leave⟩

variable (hcreate : ∀ type message, create type = some message → message = blank)
  (h : Parses FrameStack.AtMessage read blank spells FrameStack.Fresh)
include hcreate h

/-- A message that may be absent. -/
theorem message {slot : Option R} :
    Parses FrameStack.AtField (readMessage create read) slot (SpellsOptional spells)
      FrameStack.Fresh := by
  intro src result src' hs hread
  simp only [readMessage, hs.messageStarted, Bool.false_eq_true, if_false] at hread
  split at hread
  · cases hread
  · next hlong =>
    have hlen : (src.input.take 2).length = 2 := by
      rw [List.length_take]
      omega
    split at hread
    · next hnull =>
      simp only [Reading.mk.injEq, true_and] at hread
      obtain ⟨rfl, rfl⟩ := hread
      refine ⟨src.input.take 2, (List.take_append_drop ..).symm, ?_, hs.fresh⟩
      rw [SpellsOptional, nullBytes, ← hnull, littleEndian_uint16Of hlen]
    · split at hread
      · cases hread
      · next message hmessage =>
        obtain rfl := hcreate _ _ hmessage
        simp only [resumeMessage] at hread
        rcases hr : readNested read message
          (src.modifyTop fun f => { f with messageStarted := true }) with ⟨progress, found, src''⟩
        simp only [hr, Reading.mk.injEq] at hread
        obtain ⟨rfl, rfl, rfl⟩ := hread
        obtain ⟨bs, hbs, hspells, hs'⟩ := nested h (src.modifyTop _) _ _ hs.fresh hr
        exact ⟨bs, hbs, hspells, hs'⟩

/-- A message that must be there. -/
theorem required {field : String} {slot : R} :
    Parses FrameStack.AtField (readRequired create blank read field) slot spells
      FrameStack.Fresh := by
  intro src result src' hs hread
  rcases hr : readMessage create read (some slot) src with ⟨_ | _ | e, _ | found, src''⟩ <;>
    simp only [readRequired, hr] at hread
  case advance.some =>
    simp only [Reading.mk.injEq, true_and, Option.getD_some] at hread
    obtain ⟨rfl, rfl⟩ := hread
    exact message hcreate h _ _ _ hs hr
  all_goals cases hread

/-- One more element of an array. -/
theorem element {items : List R} :
    Parses FrameStack.Between (readElement create read) items
      (fun result bs => ∃ item, result = items ++ [item] ∧ spells item bs) FrameStack.Between := by
  intro src result src' hs hread
  simp only [readElement, hs.messageStarted, Bool.false_eq_true, if_false] at hread
  split at hread
  · cases hread
  · split at hread
    · cases hread
    · split at hread
      · cases hread
      · next item hitem =>
        obtain rfl := hcreate _ _ hitem
        simp only [resumeElement, List.getLast?_concat, List.dropLast_concat] at hread
        rcases hr : readNested read item
          (src.modifyTop fun f => { f with messageStarted := true }) with ⟨progress, found, src''⟩
        simp only [hr, Reading.mk.injEq] at hread
        obtain ⟨rfl, rfl, rfl⟩ := hread
        obtain ⟨bs, hbs, hspells, hs'⟩ := nested h (src.modifyTop _) _ _ hs.fresh hr
        exact ⟨bs, hbs, ⟨found, rfl, hspells⟩, rfl, hs'⟩

/-- Elements in a row. -/
theorem elements (count : Nat) {items : List R} :
    Parses FrameStack.Between (readElements create read count) items
      (fun result bs => ∃ found, result = items ++ found ∧ found.length = count ∧
        SpellsEach spells found bs) FrameStack.Between := by
  induction count generalizing items with
  | zero =>
    intro src result src' hs hread
    simp only [readElements, Reading.mk.injEq, true_and] at hread
    obtain ⟨rfl, rfl⟩ := hread
    exact ⟨[], rfl, ⟨[], (List.append_nil _).symm, rfl, rfl⟩, hs⟩
  | succ count ih =>
    intro src result src' hs hread
    rcases hr : readElement create read items src with ⟨progress, more, src''⟩
    simp only [readElements, hr] at hread
    cases progress with
    | advance =>
      obtain ⟨front, hfront, ⟨item, rfl, hitem⟩, hs'⟩ := element hcreate h _ _ _ hs hr
      obtain ⟨back, hback, ⟨found, rfl, hcount, hfound⟩, hs''⟩ := ih _ _ _ hs' hread
      refine ⟨front ++ back, ?_, ⟨item :: found, ?_, congrArg (· + 1) hcount, front, back, rfl,
        hitem, hfound⟩, hs''⟩
      · rw [hfront, hback, List.append_assoc]
      · rw [List.append_assoc, List.singleton_append]
    | _ => cases hread

/-- An array of messages that may be absent. -/
theorem messages {slot : Option (List R)} :
    Parses FrameStack.AtField (readMessages maxLength create read) slot
      (SpellsSized (min maxLength maxWireLength) (SpellsEach spells)) FrameStack.Fresh := by
  refine sized fun n src result src' hs hread => ?_
  simp only [hs.position, Nat.sub_zero] at hread
  obtain ⟨bs, hbs, ⟨found, rfl, hcount, hfound⟩, hs'⟩ :=
    elements hcreate h n src result src' ⟨hs.messageStarted, hs.fresh⟩ hread
  exact ⟨bs, hbs, ⟨hcount, hfound⟩, hs'.fresh⟩

end

end Parses

/-! ## Reading messages -/

/-- A header that is accepted is the one of its message. -/
theorem checkHeader_ok {type : UInt16} {fieldCount : Nat} {header : Bytes} {flags : UInt8}
    (hlen : header.length = headerLength) (h : checkHeader type fieldCount header = .ok flags) :
    header = headerBytes type fieldCount flags := by
  obtain ⟨a, b, c, d, e, f, rfl⟩ : ∃ a b c d e f, header = [a, b, c, d, e, f] := by
    match header, hlen with
    | [a, b, c, d, e, f], _ => exact ⟨a, b, c, d, e, f, rfl⟩
  have htype : Bytes.littleEndian 2 (uint16Of [a, b]).toNat = [a, b] := littleEndian_uint16Of rfl
  have hversion : Bytes.littleEndian 2 (uint16Of [c, d]).toNat = [c, d] :=
    littleEndian_uint16Of rfl
  simp only [checkHeader] at h
  split at h
  · cases h
  · next hfound =>
    split at h
    · cases h
    · next hsupported =>
      split at h
      · cases h
      · next hcount =>
        obtain rfl : f = flags := Except.ok.inj h
        have hfound : uint16Of [a, b] = type := Decidable.not_not.mp hfound
        have hsupported : uint16Of [c, d] = protocolVersion := Decidable.not_not.mp hsupported
        have hcount : e.toNat = fieldCount := Decidable.not_not.mp hcount
        rw [headerBytes, ← hfound, ← hsupported, htype, hversion, ← hcount, UInt8.ofNat_toNat]
        rfl

/-- The header of a message is taken from the octets, and leads to its first field. -/
theorem readHeader_spelled {type : UInt16} {fieldCount : Nat} {src src' : Source}
    (hs : src.stack.AtMessage) (h : readHeader type fieldCount src = ⟨.advance, (), src'⟩) :
    src.input = headerBytes type fieldCount src'.stack.top.flags ++ src'.input ∧
      src'.stack.AtField ∧ src'.stack.top.state = 0 := by
  have hdone : src.stack.top.headerDone = false := by rw [hs.top]
  simp only [readHeader, hdone, Bool.false_eq_true, if_false] at h
  split at h
  · cases h
  · next hlong =>
    have hlen : (src.input.take headerLength).length = headerLength := by
      rw [List.length_take]
      omega
    split at h
    · cases h
    · next flags hflags =>
      simp only [Reading.mk.injEq, true_and] at h
      subst h
      refine ⟨?_, ⟨?_, ?_, ?_, hs.fresh⟩, ?_⟩
      · have hheader := checkHeader_ok hlen hflags
        show src.input = headerBytes type fieldCount flags ++ src.input.drop headerLength
        rw [← hheader, List.take_append_drop]
      all_goals simp [Source.modifyTop, Source.skip, FrameStack.modifyTop, hs.top]

namespace Parses

variable {maxLength limit : Nat}

/-- One field more in front. -/
theorem cons {A S : Type} {field : Field A} {rest : Fields S} {tag : Int8}
    (hfield : Parses FrameStack.AtField (field.read maxLength tag) field.blank
      (field.Spells limit tag) FrameStack.Fresh)
    (hrest : ∀ tag, Parses FrameStack.AtField (rest.read maxLength tag 0) rest.blank
      (rest.Spells limit tag) FrameStack.Fresh) :
    Parses FrameStack.AtField ((Fields.cons field rest).read maxLength tag 0)
      (Fields.cons field rest).blank ((Fields.cons field rest).Spells limit tag)
      FrameStack.Fresh := by
  intro src result src' hs hread
  rcases hr : field.read maxLength tag field.blank src with ⟨progress, slot, src₁⟩
  simp only [Fields.read, Fields.blank, hr] at hread
  cases progress with
  | advance =>
    obtain ⟨front, hfront, hslot, hs₁⟩ := hfield _ _ _ hs hr
    rcases hr' : rest.read maxLength (field.tag slot tag) 0 rest.blank
      { src₁ with stack := src₁.stack.nextField } with ⟨progress, slots, src₂⟩
    simp only [Progress.isAdvance_advance, if_true, hr', Reading.map, Reading.mk.injEq] at hread
    obtain ⟨rfl, rfl, rfl⟩ := hread
    obtain ⟨back, hback, hslots, hs₂⟩ := hrest _ _ _ _ hs₁.nextField hr'
    refine ⟨front ++ back, ?_, ⟨front, back, rfl, hslot, hslots⟩, hs₂⟩
    rw [hfront, List.append_assoc]
    exact congrArg (front ++ ·) hback
  | _ => cases hread

/-- A message of some fields. -/
theorem ofFields {S : Type} {type : UInt16} {fields : Fields S}
    {settle : S → Except CodecError Unit × S}
    (hsettle : ∀ slots settled, settle slots = (.ok (), settled) →
      settled = fields.handedOver slots)
    (h : Parses FrameStack.AtField (fields.read maxLength (-1) 0) fields.blank
      (fields.Spells limit (-1)) FrameStack.Fresh) :
    Parses FrameStack.AtMessage ((Layout.message type fields settle).read maxLength)
      (Layout.message type fields settle).blank
      ((Layout.message type fields settle).Spells limit) FrameStack.Fresh := by
  intro src result src' hs hread
  rcases hheader : readHeader type fields.count src with ⟨_ | _ | e, ⟨⟩, src₁⟩ <;>
    simp only [Layout.read, Layout.blank, hheader] at hread
  case advance =>
    obtain ⟨hfront, hs₁, hstate⟩ := readHeader_spelled hs hheader
    simp only [Progress.isAdvance_advance, if_true, hstate] at hread
    rcases hfields : fields.read maxLength (-1) 0 fields.blank src₁ with
      ⟨_ | _ | e, slots, src₂⟩ <;>
      simp only [hfields, Progress.isAdvance_advance, if_true] at hread
    case advance =>
      obtain ⟨body, hbody, hslots, hs₂⟩ := h _ _ _ hs₁ hfields
      split at hread
      · rcases hsettled : settle slots with ⟨_ | ⟨⟨⟩⟩, settled⟩ <;>
          simp only [hsettled, Progress.ofCheck, Reading.mk.injEq, reduceCtorEq, false_and,
            true_and] at hread
        obtain ⟨rfl, rfl⟩ := hread
        refine ⟨_, ?_, ⟨slots, body, rfl, hslots, hsettled, hsettle _ _ hsettled⟩, hs₂⟩
        rw [hfront, hbody, List.append_assoc]
      · next hcounted =>
        simp only [Reading.mk.injEq] at hread
        rw [hread.1] at hcounted
        exact absurd rfl hcounted
    all_goals cases hread
  all_goals cases hread

end Parses

/-- The message that is created for a type is blank. -/
theorem Layout.create_blank {R : Type} (layout : Layout R) (type : UInt16) (message : R)
    (h : layout.create type = some message) : message = layout.blank := by
  unfold Layout.create at h
  split at h
  · exact (Option.some.inj h).symm
  · cases h

mutual
/-- A message that is read has been spelled. -/
theorem Layout.parses : {R : Type} → (layout : Layout R) → (maxLength : Nat) →
    layout.HandsOver → Parses FrameStack.AtMessage (layout.read maxLength) layout.blank
      (layout.Spells (min maxLength maxWireLength)) FrameStack.Fresh
  | _, .message _ fields _, maxLength, hlaw =>
    .ofFields hlaw.1 (fields.parses maxLength hlaw.2 (-1))
/-- Fields that are read have been spelled. -/
theorem Fields.parses : {S : Type} → (fields : Fields S) → (maxLength : Nat) →
    fields.HandOver → (tag : Int8) →
    Parses FrameStack.AtField (fields.read maxLength tag 0) fields.blank
      (fields.Spells (min maxLength maxWireLength) tag) FrameStack.Fresh
  | _, .nil, _, _, _ => by
    intro src result src' hs hread
    simp only [Fields.read, Reading.mk.injEq, true_and] at hread
    subst hread
    exact ⟨[], rfl, rfl, hs.fresh⟩
  | _, .cons field rest, maxLength, hlaw, tag =>
    .cons (field.parses maxLength hlaw.1 tag) (rest.parses maxLength hlaw.2)
/-- A field that is read has been spelled. -/
theorem Field.parses : {A : Type} → (field : Field A) → (maxLength : Nat) →
    field.HandsOver → (tag : Int8) →
    Parses FrameStack.AtField (field.read maxLength tag) field.blank
      (field.Spells (min maxLength maxWireLength) tag) FrameStack.Fresh
  | _, .flag, _, _, _ => .flag
  | _, .ordinal _ _ _ _, _, _, _ => .ordinal
  | _, .int32, _, _, _ => .octets fun _ hlen => (int32Bytes_int32Of hlen).symm
  | _, .int64, _, _, _ => .octets fun _ hlen => (int64Bytes_int64Of hlen).symm
  | _, .uint128, _, _, _ => .octets fun _ hlen => (uint128Bytes_uint128Of hlen).symm
  | _, .bytes, _, _, _ => .bytes
  | _, .text _, _, _, _ => .text
  | _, .longs, maxLength, _, _ =>
    Parses.longs.map (fun items : Option (List Int64) => items.getD []) (fun _ => rfl)
      fun value _ hspells => ⟨value, hspells, rfl⟩
  | _, .optional layout, maxLength, hlaw, _ =>
    .message layout.create_blank (layout.parses maxLength hlaw)
  | _, .required _ layout, maxLength, hlaw, _ =>
    .required layout.create_blank (layout.parses maxLength hlaw)
  | _, .array layout, maxLength, hlaw, _ =>
    .messages layout.create_blank (layout.parses maxLength hlaw)
  | _, .batch layout, maxLength, hlaw, _ => by
    intro src result src' hs hread
    rcases hr : readMessages maxLength layout.create (layout.read maxLength) none src with
      ⟨_ | _ | e, value, src''⟩ <;>
      simp only [Field.read, Field.blank, BatchSlot.store, hr] at hread
    case advance =>
      simp only [Progress.isAdvance_advance, if_true, Reading.mk.injEq, true_and] at hread
      obtain ⟨rfl, rfl⟩ := hread
      obtain ⟨bs, hbs, hspells, hs'⟩ :=
        Parses.messages layout.create_blank (layout.parses maxLength hlaw) _ _ _ hs hr
      exact ⟨bs, hbs, ⟨value, hspells, rfl⟩, hs'⟩
    all_goals cases hread
  | _, .keys layout, maxLength, hlaw, _ =>
    (Parses.messages layout.create_blank (layout.parses maxLength hlaw)).map
      (fun keys : Option (List _) => ({ inbound := keys } : KeysSlot _)) (fun _ => rfl)
      fun _ _ hspells => ⟨hspells, rfl⟩
  | _, .values selector value invocation, maxLength, hlaw, tag => by
    by_cases htag : tag = selector
    · simp only [Field.read, Field.Spells, if_pos htag]
      exact (Parses.messages invocation.create_blank (invocation.parses maxLength hlaw.2)).map
        (fun items : Option (List _) => ({ inboundInvocations := items } : ValuesSlot _ _))
        (fun _ => rfl) fun _ _ hspells => ⟨hspells, rfl⟩
    · simp only [Field.read, Field.Spells, if_neg htag]
      exact (Parses.messages value.create_blank (value.parses maxLength hlaw.1)).map
        (fun items : Option (List _) => ({ inboundValues := items } : ValuesSlot _ _))
        (fun _ => rfl) fun _ _ hspells => ⟨hspells, rfl⟩
end

end Enlistment.Wire
