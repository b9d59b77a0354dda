import Enlistment.Proofs.Wire.NestedResumption

/-!
# Suspended reading of whole messages

Fields are read in order, and the frame tells how many of them are done. By
recursion on layouts every message can be read in parts, wherever they are cut.
-/

namespace Enlistment.Wire

/-! ## Fields and messages -/

/-- An array that is handed over as a whole can be read in parts. -/
theorem Resumable.batch {R : Type} {maxLength : Nat} {create : UInt16 → Option R}
    {read : R → Source → Reading R} (h : Resumable FrameStack.SameOuter read) :
    Resumable FrameStack.SameMessage fun slot : BatchSlot R => fun src =>
      slot.store (Wire.readMessages maxLength create read slot.staged src) := by
  have heq : (fun slot : BatchSlot R => fun src =>
      slot.store (Wire.readMessages maxLength create read slot.staged src)) = fun slot src =>
      (Wire.readMessages maxLength create read slot.staged src).conclude fun progress items =>
        if progress.isAdvance then (progress, ⟨none, items.getD []⟩)
        else (progress, { slot with staged := items }) := by
    funext slot src
    unfold BatchSlot.store Reading.conclude
    rcases Wire.readMessages maxLength create read slot.staged src with ⟨_ | _ | e, items, src'⟩ <;>
      rfl
  rw [heq]
  exact (Resumable.readMessages h maxLength).conclude BatchSlot.staged _
    (fun slot items => by simp) (fun slot e items => by simp) fun slot src items src' hr =>
      ⟨rfl, rfl, rfl⟩

/-- An array that goes into one part of a slot, whatever happens. -/
theorem Resumable.part {A B : Type} {keeps : FrameStack → FrameStack → Prop}
    {read : A → Source → Reading A} (h : Resumable keeps read) (get : B → A) (set : B → A → B)
    (hget : ∀ b a, get (set b a) = a) (hset : ∀ b a a', set (set b a) a' = set b a') :
    Resumable keeps fun b src => (read (get b) src).map (set b) :=
  h.conclude get (fun b progress a => (progress, set b a)) (fun b a => by simp)
    (fun b e a => by simp) fun b src a src' hr => ⟨rfl, hget b a, by simp only [hset]⟩

/-- A header is taken once all of it has come. -/
theorem readHeader_feed (type : UInt16) (fieldCount : Nat) (src : Source) (bs : Bytes) :
    readHeader type fieldCount (src.feed bs) =
      (readHeader type fieldCount src).resume (fun _ src => readHeader type fieldCount src) bs := by
  by_cases hdone : src.stack.top.headerDone = true
  · simp only [readHeader, Source.feed_stack, hdone, if_true, Reading.resume]
  · by_cases h : src.input.length < headerLength
    · simp only [readHeader, hdone, h, if_true, Bool.false_eq_true, if_false, Reading.resume]
    · obtain ⟨h', htake, hskip⟩ := Source.feed_at_hand h bs
      simp only [readHeader, Source.feed_stack, if_neg hdone, if_neg h, if_neg h', htake, hskip]
      split <;> rfl

/-- After its header a message is at the same field as before. -/
theorem readHeader_stack (type : UInt16) (fieldCount : Nat) (src : Source) :
    let r := readHeader type fieldCount src
    r.source.stack.outer = src.stack.outer ∧ r.source.input.length ≤ src.input.length ∧
      (r.progress = .advance → r.source.stack.top.headerDone = true) := by
  unfold readHeader
  split
  · next hdone => exact ⟨rfl, Nat.le_refl _, fun _ => hdone⟩
  · split
    · exact ⟨rfl, Nat.le_refl _, fun h => by simp at h⟩
    · have hskip : (src.skip headerLength).input.length ≤ src.input.length := by simp [Source.skip]
      split
      · exact ⟨rfl, hskip, fun h => by simp at h⟩
      · exact ⟨rfl, hskip, fun _ => rfl⟩

/-- Reading fields, of which the first is the one with number `base`, where the frames say. -/
def Fields.readFrom {S : Type} (fields : Fields S) (maxLength : Nat) (tag : Int8) (base : Nat)
    (slots : S) (src : Source) : Reading S :=
  fields.read maxLength tag (src.stack.top.state - base) slots src

/-- Fields that are resumed where the frames say read on as if never suspended. -/
structure Fields.Resumable {S : Type} (fields : Fields S) (maxLength : Nat) : Prop where
  feed : ∀ tag base slots src bs, base ≤ src.stack.top.state →
    fields.readFrom maxLength tag base slots (src.feed bs) =
      (fields.readFrom maxLength tag base slots src).resume (fields.readFrom maxLength tag base) bs
  keeps : ∀ tag skip slots (src : Source),
    src.stack.Ahead (fields.read maxLength tag skip slots src).source.stack
  length_le : ∀ tag skip slots (src : Source),
    (fields.read maxLength tag skip slots src).source.input.length ≤ src.input.length

/-- Fields behind the first one are read on with the rest of them. -/
theorem Fields.readFrom_of_lt {A S : Type} {field : Field A} {rest : Fields S} {maxLength : Nat}
    {tag : Int8} {base : Nat} (slots : A × S) (src : Source) (h : base < src.stack.top.state) :
    (Fields.cons field rest).readFrom maxLength tag base slots src =
      (rest.readFrom maxLength (field.tag slots.1 tag) (base + 1) slots.2 src).map
        fun s => (slots.1, s) := by
  have hskip : src.stack.top.state - base = src.stack.top.state - (base + 1) + 1 := by omega
  simp only [readFrom, hskip, Fields.read]

/-- A suspension behind the first field is one of the rest of the fields. -/
theorem Fields.map_resume {A S : Type} {field : Field A} {rest : Fields S} {maxLength : Nat}
    {tag : Int8} {base : Nat} {slot : A} {r : Reading S} (bs : Bytes)
    (h : base < r.source.stack.top.state) :
    ((r.resume (rest.readFrom maxLength (field.tag slot tag) (base + 1)) bs).map
        fun s => (slot, s)) =
      (r.map fun s => (slot, s)).resume
        ((Fields.cons field rest).readFrom maxLength tag base) bs := by
  rcases r with ⟨_ | _ | e, slots, src⟩
  · rfl
  · exact (readFrom_of_lt (slot, slots) (src.feed bs) h).symm
  · rfl

/-- Without fields there is nothing to suspend. -/
theorem Fields.resumable_nil (maxLength : Nat) : Fields.nil.Resumable maxLength :=
  ⟨fun _ _ _ _ _ _ => rfl, fun _ _ _ _ => .refl _, fun _ _ _ _ => Nat.le_refl _⟩

/-- The number of fields done tells a resumed call whether to go on with the first of them. -/
theorem Fields.feed_cons {A S : Type} {field : Field A} {rest : Fields S} {maxLength : Nat}
    (hfield : ∀ tag, Wire.Resumable FrameStack.SameMessage (field.read maxLength tag))
    (hrest : rest.Resumable maxLength) (tag : Int8) (base : Nat) (slots : A × S) (src : Source)
    (bs : Bytes) (hbase : base ≤ src.stack.top.state) :
    (Fields.cons field rest).readFrom maxLength tag base slots (src.feed bs) =
      ((Fields.cons field rest).readFrom maxLength tag base slots src).resume
        ((Fields.cons field rest).readFrom maxLength tag base) bs := by
  rcases Nat.lt_or_eq_of_le hbase with hlt | heq
  · have hfeed := hrest.feed (field.tag slots.1 tag) (base + 1) slots.2 src bs hlt
    have hahead := (hrest.keeps (field.tag slots.1 tag) (src.stack.top.state - (base + 1)) slots.2
      src).state
    rw [readFrom_of_lt slots src hlt, readFrom_of_lt slots (src.feed bs) hlt, hfeed]
    exact map_resume bs (Nat.lt_of_lt_of_le hlt hahead)
  · have hskip : src.stack.top.state - base = 0 := by omega
    have hkeeps := (hfield tag).keeps slots.1 src
    simp only [readFrom, Source.feed_stack, hskip, Fields.read, (hfield tag).feed]
    rcases hr : field.read maxLength tag slots.1 src with ⟨_ | _ | e, slot, src'⟩
    · rw [hr] at hkeeps
      have hstate : src'.stack.top.state = src.stack.top.state := hkeeps.state
      let next : Source := { src' with stack := src'.stack.nextField }
      have hnext : next.stack.top.state = base + 1 := by
        show src'.stack.top.state + 1 = base + 1
        omega
      have hskip' : next.stack.top.state - (base + 1) = 0 := by omega
      have hfeed := hrest.feed (field.tag slot tag) (base + 1) slots.2 next bs (by omega)
      have hahead := (hrest.keeps (field.tag slot tag) 0 slots.2 next).state
      simp only [readFrom, Source.feed_stack, hskip'] at hfeed
      simp only [Reading.resume, Progress.isAdvance_advance, if_true]
      rw [show ({ src'.feed bs with stack := (src'.feed bs).stack.nextField } : Source) =
        next.feed bs from rfl, hfeed]
      exact map_resume bs (by omega)
    · rw [hr] at hkeeps
      have hstate : src'.stack.top.state = src.stack.top.state := hkeeps.state
      simp only [Reading.map, Reading.resume, Progress.isAdvance_incomplete, Bool.false_eq_true,
        if_false, readFrom, Source.feed_stack, hstate, hskip, Fields.read]
      rfl
    · rfl

/-- Fields leave of the frames and the octets what the field at hand and the rest leave. -/
theorem Fields.keeps_cons {A S : Type} {field : Field A} {rest : Fields S} {maxLength : Nat}
    (hfield : ∀ tag, Wire.Resumable FrameStack.SameMessage (field.read maxLength tag))
    (hrest : rest.Resumable maxLength) (tag : Int8) (skip : Nat) (slots : A × S) (src : Source) :
    let r := (Fields.cons field rest).read maxLength tag skip slots src
    src.stack.Ahead r.source.stack ∧ r.source.input.length ≤ src.input.length := by
  cases skip with
  | zero =>
    have hkeeps := ((hfield tag).keeps slots.1 src).ahead
    have hle := (hfield tag).length_le slots.1 src
    simp only [Fields.read]
    split
    · let next : Source := { (field.read maxLength tag slots.1 src).source with
        stack := (field.read maxLength tag slots.1 src).source.stack.nextField }
      have hkeeps' := hrest.keeps (field.tag (field.read maxLength tag slots.1 src).slot tag) 0
        slots.2 next
      have hle' := hrest.length_le (field.tag (field.read maxLength tag slots.1 src).slot tag) 0
        slots.2 next
      exact ⟨(hkeeps.trans (.nextField _)).trans hkeeps', Nat.le_trans hle' hle⟩
    · exact ⟨hkeeps, hle⟩
  | succ skip =>
    exact ⟨hrest.keeps (field.tag slots.1 tag) skip slots.2 src,
      hrest.length_le (field.tag slots.1 tag) skip slots.2 src⟩

/-- Fields can be read in parts if each of them can. -/
theorem Fields.resumable_cons {A S : Type} {field : Field A} {rest : Fields S} {maxLength : Nat}
    (hfield : ∀ tag, Wire.Resumable FrameStack.SameMessage (field.read maxLength tag))
    (hrest : rest.Resumable maxLength) : (Fields.cons field rest).Resumable maxLength :=
  ⟨feed_cons hfield hrest, fun tag skip slots src => (keeps_cons hfield hrest tag skip slots src).1,
    fun tag skip slots src => (keeps_cons hfield hrest tag skip slots src).2⟩

/-- What is settled about a message takes no octets: they go to its header and its fields. -/
theorem Layout.read_source {S : Type} (type : UInt16) (fields : Fields S)
    (settle : S → Except CodecError Unit × S) (maxLength : Nat) (message : Record S)
    (src : Source) :
    let header := readHeader type fields.count src
    ((Layout.message type fields settle).read maxLength message src).source =
      if header.progress.isAdvance then
        (fields.read maxLength (-1) header.source.stack.top.state message.slots
          header.source).source
      else header.source := by
  simp only [Layout.read]
  split
  · split
    · split <;> rfl
    · rfl
  · rfl

/-- A message goes on behind its header and behind the fields that are done. -/
theorem Layout.feed_message {S : Type} {type : UInt16} {fields : Fields S}
    {settle : S → Except CodecError Unit × S} {maxLength : Nat}
    (hfields : fields.Resumable maxLength) (message : Record S) (src : Source) (bs : Bytes) :
    (Layout.message type fields settle).read maxLength message (src.feed bs) =
      ((Layout.message type fields settle).read maxLength message src).resume
        ((Layout.message type fields settle).read maxLength) bs := by
  have hheader := readHeader_stack type fields.count src
  simp only [Layout.read, readHeader_feed]
  rcases hh : readHeader type fields.count src with ⟨_ | _ | e, _, src'⟩
  · rw [hh] at hheader
    have hdone : src'.stack.top.headerDone = true := hheader.2.2 rfl
    have hfeed := hfields.feed (-1) 0 message.slots src' bs (Nat.zero_le _)
    have hkeeps := hfields.keeps (-1) src'.stack.top.state message.slots src'
    simp only [Fields.readFrom, Source.feed_stack, Nat.sub_zero] at hfeed
    simp only [Reading.resume, Progress.isAdvance_advance, if_true, Source.feed_stack, hfeed]
    rcases hr : fields.read maxLength (-1) src'.stack.top.state message.slots src' with
      ⟨_ | _ | e, slots, src''⟩
    · simp only [Progress.isAdvance_advance, if_true, Source.feed_stack]
      unfold checkFieldCount
      by_cases hcount : src''.stack.top.state = fields.count
      · rcases hsettle : settle slots with ⟨_ | _, slots'⟩
        · simp [hcount, Progress.ofCheck]
        · simp [hcount, Progress.ofCheck]
      · simp [hcount]
    · rw [hr] at hkeeps
      have hdone' : src''.stack.top.headerDone = true := hkeeps.headerDone.trans hdone
      have hflags : src''.stack.top.flags = src'.stack.top.flags := hkeeps.flags
      simp only [Progress.isAdvance_incomplete, Bool.false_eq_true, if_false, readHeader,
        Source.feed_stack, hdone', if_true, Progress.isAdvance_advance, hflags,
        Fields.readFrom, Nat.sub_zero]
      rfl
    · rfl
  · simp only [Reading.resume, Progress.isAdvance_incomplete, Bool.false_eq_true, if_false]
    rfl
  · rfl

/-- A message can be read in parts if its fields can. -/
theorem Layout.resumable_message {S : Type} {type : UInt16} {fields : Fields S}
    {settle : S → Except CodecError Unit × S} {maxLength : Nat}
    (hfields : fields.Resumable maxLength) :
    Resumable FrameStack.SameOuter ((Layout.message type fields settle).read maxLength) := by
  refine ⟨feed_message hfields, fun message src => ?_, fun message src => ?_⟩
  · have houter := (readHeader_stack type fields.count src).1
    simp only [Layout.read_source, FrameStack.SameOuter]
    split
    · exact (hfields.keeps _ _ _ _).outer.trans houter
    · exact houter
  · have hle := (readHeader_stack type fields.count src).2.1
    simp only [Layout.read_source]
    split
    · exact Nat.le_trans (hfields.length_le _ _ _ _) hle
    · exact hle

/-- A field of fixed width can be read in parts. -/
theorem Resumable.fixed {A : Type} (width : Nat) (decode : Bytes → A) :
    Resumable FrameStack.SameMessage (Wire.readFixed width decode) :=
  (Resumable.readFixed width decode).mono fun _ _ h => h.toSameMessage

mutual
/-- A message can be read in parts. -/
theorem Layout.resumable : {R : Type} → (layout : Layout R) → (maxLength : Nat) →
    Resumable FrameStack.SameOuter (layout.read maxLength)
  | _, .message _ fields _, maxLength => Layout.resumable_message (fields.resumable maxLength)
/-- Fields can be read in parts. -/
theorem Fields.resumable : {S : Type} → (fields : Fields S) → (maxLength : Nat) →
    fields.Resumable maxLength
  | _, .nil, maxLength => Fields.resumable_nil maxLength
  | _, .cons field rest, maxLength =>
    Fields.resumable_cons (field.resumable maxLength) (rest.resumable maxLength)
/-- A field can be read in parts. -/
theorem Field.resumable : {A : Type} → (field : Field A) → (maxLength : Nat) → (tag : Int8) →
    Resumable FrameStack.SameMessage (field.read maxLength tag)
  | _, .flag, _, _ => (Resumable.fixed _ _ : Resumable _ readBool)
  | _, .ordinal name count optional _, _, _ =>
    (Resumable.readOrdinal name count optional).mono fun _ _ h => h.toSameMessage
  | _, .int32, _, _ => (Resumable.fixed _ _ : Resumable _ readInt32)
  | _, .int64, _, _ => (Resumable.fixed _ _ : Resumable _ readInt64)
  | _, .uint128, _, _ => (Resumable.fixed _ _ : Resumable _ readUInt128)
  | _, .bytes, maxLength, _ => .readSized .fillBytes maxLength _ _
  | _, .text onNull, maxLength, _ => .readTextField maxLength onNull
  | _, .longs, maxLength, _ => .readLongField maxLength
  | _, .optional layout, maxLength, _ =>
    (Resumable.readMessage (layout.resumable maxLength)).mono fun _ _ h => h.toSameMessage
  | _, .required name layout, maxLength, _ =>
    (Resumable.readRequired (layout.resumable maxLength) _ name).mono fun _ _ h => h.toSameMessage
  | _, .array layout, maxLength, _ => .readMessages (layout.resumable maxLength) maxLength
  | _, .batch layout, maxLength, _ => .batch (layout.resumable maxLength)
  | _, .keys layout, maxLength, _ =>
    (Resumable.readMessages (layout.resumable maxLength) maxLength).part KeysSlot.inbound
      (fun slot keys => { slot with inbound := keys }) (fun _ _ => rfl) fun _ _ _ => rfl
  | _, .values selector value invocation, maxLength, tag => by
    by_cases htag : tag = selector
    · simp only [Field.read, htag, if_true]
      exact (Resumable.readMessages (invocation.resumable maxLength) maxLength).part
        ValuesSlot.inboundInvocations (fun slot items => { slot with inboundInvocations := items })
        (fun _ _ => rfl) fun _ _ _ => rfl
    · simp only [Field.read, htag, if_false]
      exact (Resumable.readMessages (value.resumable maxLength) maxLength).part
        ValuesSlot.inboundValues (fun slot items => { slot with inboundValues := items })
        (fun _ _ => rfl) fun _ _ _ => rfl
end

/-- A header that is complete and was not before has taken its octets. -/
theorem readHeader_advance {type : UInt16} {fieldCount : Nat} {src : Source}
    (hdone : src.stack.top.headerDone = false)
    (h : (readHeader type fieldCount src).progress = .advance) :
    (readHeader type fieldCount src).source.input.length + headerLength = src.input.length := by
  unfold readHeader at h ⊢
  simp only [hdone, Bool.false_eq_true, if_false] at h ⊢
  by_cases hshort : src.input.length < headerLength
  · simp [hshort] at h
  · simp only [hshort, if_false] at h ⊢
    cases hcheck : checkHeader type fieldCount (src.input.take headerLength) with
    | error e => simp [hcheck] at h
    | ok flags =>
      simp only [Source.modifyTop, Source.skip, List.length_drop]
      omega

/-- A message that is complete has taken its header at least. -/
theorem Layout.read_advance {R : Type} (layout : Layout R) {maxLength : Nat} (message : R)
    (src : Source) (hdone : src.stack.top.headerDone = false)
    (h : (layout.read maxLength message src).progress = .advance) :
    (layout.read maxLength message src).source.input.length + headerLength ≤ src.input.length := by
  cases layout with
  | message type fields settle =>
    simp only [Layout.read_source]
    rcases hh : readHeader type fields.count src with ⟨_ | _ | e, _, src'⟩
    · have hheader := readHeader_advance hdone (by rw [hh])
      have hle :=
        (fields.resumable maxLength).length_le (-1) src'.stack.top.state message.slots src'
      rw [hh] at hheader
      simp only [Progress.isAdvance_advance, if_true]
      simp only at hheader
      omega
    · simp [Layout.read, hh] at h
    · simp [Layout.read, hh] at h

end Enlistment.Wire
