import Enlistment.Proofs.Wire.Arrival
import Enlistment.Proofs.Wire.Emission
import Enlistment.Proofs.Wire.MessageResumption

/-!
# Taking octets

A reader that starts from fresh frames takes given octets if it completes on them and leaves the
octets behind them alone. What the readers of units take is put together to what the readers of
fields, nested messages and whole messages take.
-/

namespace Enlistment.Wire

/-! ## Numbers -/

/-- The octets of a number of 16 bits give it back. -/
theorem uint16Of_littleEndian (n : UInt16) : uint16Of (Bytes.littleEndian 2 n.toNat) = n := by
  have hlt : n.toNat < Nat.pow 256 2 := n.toNat_lt
  rw [uint16Of, Bytes.toNat_littleEndian hlt, UInt16.ofNat_toNat]

/-- The octets of a number of 32 bits give it back. -/
theorem int32Of_int32Bytes (n : Int32) : int32Of (int32Bytes n) = n := by
  have hlt : n.toUInt32.toNat < Nat.pow 256 4 := n.toUInt32.toNat_lt
  rw [int32Of, int32Bytes, Bytes.toNat_littleEndian hlt, UInt32.ofNat_toNat]
  rfl

/-- The octets of a number of 64 bits give it back. -/
theorem int64Of_int64Bytes (n : Int64) : int64Of (int64Bytes n) = n := by
  have hlt : n.toUInt64.toNat < Nat.pow 256 8 := n.toUInt64.toNat_lt
  rw [int64Of, int64Bytes, Bytes.toNat_littleEndian hlt, UInt64.ofNat_toNat]
  rfl

/-- The octets of a number of 128 bits give it back. -/
theorem uint128Of_uint128Bytes (n : BitVec 128) : uint128Of (uint128Bytes n) = n := by
  have hlt : n.toNat < Nat.pow 256 16 := n.isLt
  rw [uint128Of, uint128Bytes, Bytes.toNat_littleEndian hlt, BitVec.ofNat_toNat,
    BitVec.setWidth_eq]

/-- Numbers take eight octets each. -/
theorem length_int64Bytes (items : List Int64) :
    (items.flatMap int64Bytes).length = 8 * items.length := by
  induction items with
  | nil => rfl
  | cons n rest ih =>
    have hlen : (int64Bytes n).length = 8 := Bytes.length_littleEndian 8 _
    rw [List.flatMap_cons, List.length_append, List.length_cons, ih, hlen]
    omega

/-- The octets of numbers give them back one by one. -/
theorem takeLongs_int64Bytes (items : List Int64) (more : Bytes) :
    takeLongs items.length (items.flatMap int64Bytes ++ more) = items := by
  induction items with
  | nil => rfl
  | cons n rest ih =>
    have hlen : (int64Bytes n).length = 8 := Bytes.length_littleEndian 8 _
    rw [List.flatMap_cons, List.append_assoc, List.length_cons, takeLongs,
      List.take_left' hlen, List.drop_left' hlen, int64Of_int64Bytes, ih]

/-- The length field of an absent unit is told from all others. -/
theorem decodeLength_lengthBytes_none (maxLength : Nat) :
    decodeLength maxLength (int32Of (lengthBytes none)) = .ok none := by
  rw [lengthBytes, int32Of_int32Bytes, decodeLength, if_pos rfl]

/-- A length that fits its field and the limit is read back. -/
theorem decodeLength_lengthBytes_some {maxLength n : Nat} (hwire : n ≤ maxWireLength)
    (hmax : n ≤ maxLength) :
    decodeLength maxLength (int32Of (lengthBytes (some n))) = .ok (some n) := by
  have hint : (Int32.ofNat n).toInt = n := Int32.toInt_ofNat_of_lt (by
    simp only [maxWireLength] at hwire
    omega)
  have hne : Int32.ofNat n ≠ -1 := by
    intro h
    have hneg := congrArg Int32.toInt h
    rw [hint] at hneg
    simp at hneg
  have hnonneg : ¬ Int32.ofNat n < 0 := by
    rw [Int32.lt_iff_toInt_lt, hint]
    simp
  rw [lengthBytes, int32Of_int32Bytes, decodeLength, if_neg hne, if_neg hnonneg, hint,
    Int.toNat_natCast, if_neg (Nat.not_lt.mpr hmax)]

/-! ## Units -/

/-- A reader that, from frames with `start` and into `slot`, takes `bs` off whatever octets
begin with them, completes with `result` and leaves frames with `finish`. -/
def Takes {A : Type} (start : FrameStack → Prop) (read : A → Source → Reading A) (slot : A)
    (bs : Bytes) (result : A) (finish : FrameStack → Prop) : Prop :=
  ∀ s more, start s →
    ∃ s', read slot ⟨s, bs ++ more⟩ = ⟨.advance, result, ⟨s', more⟩⟩ ∧ finish s'

namespace Takes

variable {A : Type} {start finish : FrameStack → Prop}

/-- A statement may say less. -/
theorem weaken {start' finish' : FrameStack → Prop} {read : A → Source → Reading A} {slot : A}
    {bs : Bytes} {result : A} (h : Takes start read slot bs result finish)
    (hstart : ∀ s, start' s → start s) (hfinish : ∀ s, finish s → finish' s) :
    Takes start' read slot bs result finish' := by
  intro s more hs
  obtain ⟨s', hread, hs'⟩ := h s more (hstart s hs)
  exact ⟨s', hread, hfinish s' hs'⟩

/-- A unit of fixed width is taken whole. -/
theorem fixed {width : Nat} (decode : Bytes → A) (slot : A) {bs : Bytes}
    (hlen : bs.length = width) :
    Takes start (readFixed width decode) slot bs (decode bs) start := by
  intro s more hs
  have hlong : ¬ (bs ++ more).length < width := by
    rw [List.length_append]
    omega
  refine ⟨s, ?_, hs⟩
  simp only [readFixed, if_neg hlong, Source.skip, List.take_left' hlen, List.drop_left' hlen]

/-- A field of fixed width is taken whole. -/
theorem octets {width : Nat} (decode : Bytes → A) (slot : A) {bs : Bytes} {result : A}
    (hlen : bs.length = width) (hresult : decode bs = result) :
    Takes FrameStack.AtField (readFixed width decode) slot bs result FrameStack.Fresh := by
  rw [← hresult]
  exact (fixed decode slot hlen).weaken (fun _ h => h) fun _ h => h.fresh

/-- An ordinal is taken if it may stand in its field. -/
theorem ordinal {name : String} {count : Nat} {optional : Bool} (slot : Int8) {n : Int8}
    (h : ordinalAllowed count optional n = true) :
    Takes FrameStack.AtField (readOrdinal name count optional) slot [n.toUInt8] n
      FrameStack.Fresh := by
  intro s more hs
  have hint8 : Takes FrameStack.AtField readInt8 slot [n.toUInt8] n FrameStack.Fresh :=
    octets _ slot rfl rfl
  obtain ⟨s', hread, hs'⟩ := hint8 s more hs
  refine ⟨s', ?_, hs'⟩
  simp only [readOrdinal, hread, Progress.isAdvance_advance, h, Bool.not_true, Bool.and_false,
    Bool.false_eq_true, if_false]

/-- An absent unit is taken as its length. -/
theorem absent {maxLength : Nat} {what : String} {empty : A}
    {fill : Nat → A → Source → Reading A} (slot : Option A) :
    Takes FrameStack.AtField (readSized maxLength what empty fill) slot (lengthBytes none) none
      FrameStack.Fresh := by
  intro s more hs
  have hlen : (lengthBytes none).length = 4 := Bytes.length_littleEndian 4 _
  have hlong : ¬ (lengthBytes none ++ more).length < 4 := by
    rw [List.length_append]
    omega
  refine ⟨s, ?_, hs.fresh⟩
  simp only [readSized, hs.fieldStarted, Bool.false_eq_true, if_false, if_neg hlong,
    List.take_left' hlen, decodeLength_lengthBytes_none, Source.skip, List.drop_left' hlen]

/-- A unit that is there is taken as its length and then its contents. -/
theorem present {maxLength n : Nat} {what : String} {empty : A}
    {fill : Nat → A → Source → Reading A} (slot : Option A) {bs : Bytes} {result : A}
    (hwire : n ≤ maxWireLength) (hmax : n ≤ maxLength)
    (h : Takes FrameStack.AtContents (fill n) empty bs result FrameStack.Fresh) :
    Takes FrameStack.AtField (readSized maxLength what empty fill) slot
      (lengthBytes (some n) ++ bs) (some result) FrameStack.Fresh := by
  intro s more hs
  have hlen : (lengthBytes (some n)).length = 4 := Bytes.length_littleEndian 4 _
  have hlong : ¬ (lengthBytes (some n) ++ (bs ++ more)).length < 4 := by
    rw [List.length_append]
    omega
  let inside : FrameStack := s.modifyTop fun f => { f with fieldStarted := true, length := n }
  obtain ⟨s', hread, hs'⟩ := h inside more ⟨hs.messageStarted, hs.position, hs.fresh⟩
  refine ⟨s', ?_, hs'⟩
  rw [List.append_assoc]
  simp only [readSized, hs.fieldStarted, Bool.false_eq_true, if_false, if_neg hlong,
    List.take_left' hlen, decodeLength_lengthBytes_some hwire hmax, Source.skip,
    List.drop_left' hlen, Source.modifyTop, resumeSized]
  show Reading.map some (fill n empty ⟨inside, bs ++ more⟩) = _
  rw [hread]
  rfl

end Takes

/-! ## Nested messages -/

/-- Octets that begin with the type number of a message which `create` knows as `blank`. -/
def Announces {R : Type} (create : UInt16 → Option R) (blank : R) (bs : Bytes) : Prop :=
  ∃ type rest, bs = Bytes.littleEndian 2 type.toNat ++ rest ∧ type ≠ nullType ∧
    create type = some blank

/-- An announcement is seen before more octets. -/
theorem Announces.take_two {R : Type} {create : UInt16 → Option R} {blank : R} {bs : Bytes}
    (h : Announces create blank bs) (more : Bytes) :
    ¬ (bs ++ more).length < 2 ∧ uint16Of ((bs ++ more).take 2) ≠ nullType ∧
      create (uint16Of ((bs ++ more).take 2)) = some blank := by
  obtain ⟨type, rest, rfl, hnull, hcreate⟩ := h
  have hlen : (Bytes.littleEndian 2 type.toNat).length = 2 := Bytes.length_littleEndian 2 _
  rw [List.append_assoc, List.take_left' hlen, uint16Of_littleEndian]
  refine ⟨?_, hnull, hcreate⟩
  rw [List.length_append]
  omega

namespace Takes

section

variable {R : Type} {create : UInt16 → Option R} {read : R → Source → Reading R} {blank : R}

/-- A nested message is taken as it would be on its own. -/
theorem nested {bs : Bytes} {message : R} (hkeeps : Resumable FrameStack.SameOuter read)
    (h : Takes FrameStack.AtMessage read blank bs message FrameStack.Fresh) (s : FrameStack)
    (hs : s.Fresh) (more : Bytes) :
    ∃ s', readNested read blank ⟨s, bs ++ more⟩ = ⟨.advance, message, ⟨s', more⟩⟩ ∧
      s'.top = s.top ∧ s'.Fresh := by
  obtain ⟨s', hread, hs'⟩ := h s.enter more hs.enter
  have hstack := readNested_stack hkeeps blank ⟨s, bs ++ more⟩
  simp only [readNested, hread] at hstack ⊢
  exact ⟨s'.leave true, rfl, hstack.2, hs'.leave⟩

/-- A message that may be absent, if it is. -/
theorem null (slot : Option R) :
    Takes FrameStack.AtField (readMessage create read) slot nullBytes none FrameStack.Fresh := by
  intro s more hs
  have hlen : nullBytes.length = 2 := Bytes.length_littleEndian 2 _
  have hlong : ¬ (nullBytes ++ more).length < 2 := by
    rw [List.length_append]
    omega
  have htype : uint16Of nullBytes = nullType := uint16Of_littleEndian nullType
  refine ⟨s, ?_, hs.fresh⟩
  simp only [readMessage, hs.messageStarted, Bool.false_eq_true, if_false, if_neg hlong,
    List.take_left' hlen, htype, if_true, Source.skip, List.drop_left' hlen]

/-- A message that may be absent, if it is there. -/
theorem message (slot : Option R) {bs : Bytes} {message : R}
    (hkeeps : Resumable FrameStack.SameOuter read) (hopen : Announces create blank bs)
    (h : Takes FrameStack.AtMessage read blank bs message FrameStack.Fresh) :
    Takes FrameStack.AtField (readMessage create read) slot bs (some message)
      FrameStack.Fresh := by
  intro s more hs
  obtain ⟨hlong, hnull, hcreate⟩ := hopen.take_two more
  obtain ⟨s', hread, -, hs'⟩ :=
    nested hkeeps h (s.modifyTop fun f => { f with messageStarted := true }) hs.fresh more
  refine ⟨s'.modifyTop fun f => { f with messageStarted := false }, ?_, hs'⟩
  simp only [readMessage, hs.messageStarted, Bool.false_eq_true, if_false, if_neg hlong,
    if_neg hnull, hcreate, resumeMessage, Source.modifyTop, hread, Progress.isAdvance_advance,
    if_true]

/-- A message that must be there. -/
theorem required (field : String) (slot : R) {bs : Bytes} {message : R}
    (hkeeps : Resumable FrameStack.SameOuter read) (hopen : Announces create blank bs)
    (h : Takes FrameStack.AtMessage read blank bs message FrameStack.Fresh) :
    Takes FrameStack.AtField (readRequired create blank read field) slot bs message
      FrameStack.Fresh := by
  intro s more hs
  obtain ⟨s', hread, hs'⟩ := Takes.message (some slot) hkeeps hopen h s more hs
  refine ⟨s', ?_, hs'⟩
  simp only [readRequired, hread, Option.getD_some]

/-- One more element of an array. -/
theorem element {bs : Bytes} {message : R} (hkeeps : Resumable FrameStack.SameOuter read)
    (hopen : Announces create blank bs)
    (h : Takes FrameStack.AtMessage read blank bs message FrameStack.Fresh) (items : List R) :
    Takes FrameStack.Between (readElement create read) items bs (items ++ [message])
      FrameStack.Between := by
  intro s more hs
  obtain ⟨hlong, hnull, hcreate⟩ := hopen.take_two more
  obtain ⟨s', hread, -, hs'⟩ :=
    nested hkeeps h (s.modifyTop fun f => { f with messageStarted := true }) hs.fresh more
  refine ⟨s'.modifyTop fun f => { f with messageStarted := false, position := f.position + 1 }, ?_,
    rfl, hs'⟩
  simp only [readElement, hs.messageStarted, Bool.false_eq_true, if_false, if_neg hlong,
    if_neg hnull, hcreate, resumeElement, List.getLast?_concat, List.dropLast_concat,
    Source.modifyTop, hread, Progress.isAdvance_advance, if_true]

end

end Takes

/-! ## Whole messages -/

/-- A header is checked against itself. -/
theorem checkHeader_headerBytes {type : UInt16} {fieldCount : Nat} (flags : UInt8)
    (hcount : fieldCount < 256) :
    checkHeader type fieldCount (headerBytes type fieldCount flags) = .ok flags := by
  have hlen : ∀ n, (Bytes.littleEndian 2 n).length = 2 := Bytes.length_littleEndian 2
  have htoNat : (UInt8.ofNat fieldCount).toNat = fieldCount := by
    rw [UInt8.toNat_ofNat']
    omega
  have hlen4 : (Bytes.littleEndian 2 type.toNat ++
      Bytes.littleEndian 2 protocolVersion.toNat).length = 4 := by
    rw [List.length_append, hlen, hlen]
  have hdrop5 : (headerBytes type fieldCount flags).drop 5 = [flags] := by
    rw [show 5 = 4 + 1 from rfl, ← List.drop_drop, headerBytes, List.drop_left' hlen4]
    rfl
  unfold checkHeader
  rw [hdrop5, headerBytes, List.drop_left' hlen4, List.append_assoc, List.take_left' (hlen _),
    List.drop_left' (hlen _), List.take_left' (hlen _), uint16Of_littleEndian,
    uint16Of_littleEndian]
  simp [htoNat]

/-- The header of a message leads to its first field. -/
theorem readHeader_headerBytes (type : UInt16) {fieldCount : Nat} (flags : UInt8)
    (hcount : fieldCount < 256) (s : FrameStack) (hs : s.AtMessage) (more : Bytes) :
    ∃ s', readHeader type fieldCount ⟨s, headerBytes type fieldCount flags ++ more⟩ =
        ⟨.advance, (), ⟨s', more⟩⟩ ∧
      s'.AtField ∧ s'.top.state = 0 ∧ s'.top.flags = flags := by
  have hlen : (headerBytes type fieldCount flags).length = headerLength := by
    simp [headerBytes, headerLength]
  have hlong : ¬ (headerBytes type fieldCount flags ++ more).length < headerLength := by
    rw [List.length_append]
    omega
  refine ⟨s.modifyTop fun f => { f with headerDone := true, flags := flags }, ?_, ?_, ?_, rfl⟩
  · simp only [readHeader, hs.top, Bool.false_eq_true, if_false, if_neg hlong,
      List.take_left' hlen, checkHeader_headerBytes flags hcount, Source.skip,
      List.drop_left' hlen, Source.modifyTop]
  · refine ⟨?_, ?_, ?_, hs.fresh⟩ <;> simp [FrameStack.modifyTop, hs.top]
  · simp [FrameStack.modifyTop, hs.top]

/-- Fields that, behind a header, are taken as `bs` and give `slots`. -/
def Fields.TakesFrom {S : Type} (fields : Fields S) (maxLength : Nat) (tag : Int8) (bs : Bytes)
    (slots : S) : Prop :=
  ∀ s more, s.AtField → ∃ s', fields.read maxLength tag 0 fields.blank ⟨s, bs ++ more⟩ =
      ⟨.advance, slots, ⟨s', more⟩⟩ ∧
    s'.Fresh ∧ s'.top.state = s.top.state + fields.count

/-- A field is taken before the rest of them. -/
theorem Fields.TakesFrom.cons {A S : Type} {field : Field A} {rest : Fields S} {maxLength : Nat}
    {tag : Int8} {front back : Bytes} {slot : A} {slots : S}
    (hfield : Wire.Takes FrameStack.AtField (field.read maxLength tag) field.blank front slot
      FrameStack.Fresh)
    (hrest : rest.TakesFrom maxLength (field.tag slot tag) back slots) :
    (Fields.cons field rest).TakesFrom maxLength tag (front ++ back) (slot, slots) := by
  intro s more hs
  obtain ⟨s₁, hread₁, hs₁⟩ := hfield s (back ++ more) hs
  have hkeeps := (field.resumable maxLength tag).keeps field.blank
    ⟨s, front ++ (back ++ more)⟩
  rw [hread₁] at hkeeps
  have hstate : s₁.top.state = s.top.state := hkeeps.state
  obtain ⟨s₂, hread₂, hs₂, hstate₂⟩ := hrest s₁.nextField more hs₁.nextField
  refine ⟨s₂, ?_, hs₂, ?_⟩
  · simp only [Fields.blank, Fields.read, List.append_assoc, hread₁, Progress.isAdvance_advance,
      if_true, hread₂, Reading.map]
  · have hnext : s₁.nextField.top.state = s₁.top.state + 1 := rfl
    simp only [Fields.count]
    omega

/-- A message whose fields are taken is taken as its header and these, if it can be settled. -/
theorem Layout.read_message {S : Type} {type : UInt16} {fields : Fields S} {maxLength : Nat}
    {body : Bytes} {slots : S} (hcount : fields.count < 256)
    (hfields : fields.TakesFrom maxLength (-1) body slots)
    (settle : S → Except CodecError Unit × S) (flags : UInt8) {s : FrameStack}
    (hs : s.AtMessage) (more : Bytes) :
    ∃ s', (Layout.message type fields settle).read maxLength
        (Layout.message type fields settle).blank
        ⟨s, headerBytes type fields.count flags ++ body ++ more⟩ =
      ⟨.ofCheck (settle slots).1, ⟨flags, (settle slots).2⟩, ⟨s', more⟩⟩ ∧ s'.Fresh := by
  obtain ⟨s₁, hheader, hs₁, hstate₁, hflags⟩ := readHeader_headerBytes type flags hcount s hs
    (body ++ more)
  obtain ⟨s₂, hread, hs₂, hstate₂⟩ := hfields s₁ more hs₁
  have hall : s₂.top.state = fields.count := by omega
  refine ⟨s₂, ?_, hs₂⟩
  simp only [Layout.blank, Layout.read, List.append_assoc, hheader, Progress.isAdvance_advance,
    if_true, hstate₁, hflags, hread, hall, checkFieldCount]

/-- A message is taken as its header and its fields, and settled. -/
theorem Layout.takes_message {S : Type} {type : UInt16} {fields : Fields S}
    {settle : S → Except CodecError Unit × S} {maxLength : Nat} {message : Record S}
    {slots : S} {body : Bytes} (hcount : fields.count < 256)
    (hfields : fields.TakesFrom maxLength (-1) body slots)
    (hsettle : settle slots = (.ok (), message.slots)) :
    Takes FrameStack.AtMessage ((Layout.message type fields settle).read maxLength)
      (Layout.message type fields settle).blank
      (headerBytes type fields.count message.flags ++ body) message FrameStack.Fresh := by
  intro s more hs
  obtain ⟨s', hread, hs'⟩ := Layout.read_message hcount hfields settle message.flags hs more
  rw [hsettle] at hread
  exact ⟨s', hread, hs'⟩

/-- Octets that begin with the header of a layout announce its messages. -/
theorem Layout.announces_header {S : Type} {type : UInt16} {fields : Fields S}
    {settle : S → Except CodecError Unit × S} (hlawful : (Layout.message type fields settle).Lawful)
    (flags : UInt8) (body : Bytes) :
    Announces (Layout.message type fields settle).create (Layout.message type fields settle).blank
      (headerBytes type fields.count flags ++ body) := by
  refine ⟨type, Bytes.littleEndian 2 protocolVersion.toNat ++
    ([UInt8.ofNat fields.count, flags] ++ body), ?_, hlawful.1, ?_⟩
  · simp only [headerBytes, List.append_assoc]
  · simp [Layout.create, Layout.type]

/-- The encoding of a message announces it. -/
theorem Layout.announces {R : Type} (layout : Layout R) (hlawful : layout.Lawful) (message : R) :
    Announces layout.create layout.blank (layout.encode message) := by
  cases layout with
  | message type fields settle => exact announces_header hlawful message.flags _

end Enlistment.Wire
