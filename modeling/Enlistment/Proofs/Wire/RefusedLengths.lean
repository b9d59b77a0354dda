import Enlistment.Proofs.Wire.AwaitedLengths

/-!
# Where lengths are refused

A call that fails for a length stops at that length: the frames and the slot that it leaves say
that a length comes next. Nothing else in a message fails in this way.
-/

namespace Enlistment.Wire

/-- Whether an error is one about a length. -/
def CodecError.refusesLength : CodecError → Bool
  | lengthOverflow _ | invalidLength _ => true
  | _ => false

/-- Whether a call failed for a length. -/
def Progress.refusesLength : Progress → Bool
  | failed e => e.refusesLength
  | _ => false

/-- A call that failed for a length has not completed anything. -/
theorem Progress.not_advance_of_refusesLength {progress : Progress}
    (h : progress.refusesLength = true) : progress.isAdvance = false := by
  cases progress with
  | advance => cases h
  | incomplete | failed e => rfl

/-- Running out of octets is no failure. -/
theorem Progress.refusesLength_ofComplete (complete : Bool) :
    (ofComplete complete).refusesLength = false := by
  cases complete <;> rfl

/-- A call that fails for a length stops where a length is awaited. -/
def Reading.StopsAtLength {A : Type} (awaits : Place → A → Bool) (r : Reading A) : Prop :=
  r.progress.refusesLength = true → awaits r.source.stack.place r.slot = true

/-- Every call of a reader that fails for a length stops where a length is awaited. -/
def StopsAtLengths {A : Type} (awaits : Place → A → Bool) (read : A → Source → Reading A) : Prop :=
  ∀ slot src, (read slot src).StopsAtLength awaits

/-- A call that did not fail for a length. -/
theorem Reading.StopsAtLength.other {A : Type} {awaits : Place → A → Bool} {r : Reading A}
    (h : r.progress.refusesLength = false) : r.StopsAtLength awaits :=
  fun hrefused => absurd (h.symm.trans hrefused) Bool.false_ne_true

/-- A slot that is part of a larger one. -/
theorem Reading.StopsAtLength.map {A B : Type} {awaits : Place → A → Bool}
    {awaits' : Place → B → Bool} {r : Reading A} (h : r.StopsAtLength awaits) (f : A → B)
    (hf : ∀ p a, awaits p a = true → awaits' p (f a) = true) : (r.map f).StopsAtLength awaits' :=
  fun hrefused => hf _ _ (h hrefused)

/-! ## Units -/

/-- A unit without a length. -/
theorem StopsAtLengths.fixed {A : Type} {awaits : Place → A → Bool} (width : Nat)
    (decode : Bytes → A) : StopsAtLengths awaits (readFixed width decode) := by
  intro slot src
  unfold readFixed
  split <;> exact .other rfl

/-- An ordinal. -/
theorem StopsAtLengths.ordinal {awaits : Place → Int8 → Bool} (name : String) (count : Nat)
    (optional : Bool) : StopsAtLengths awaits (readOrdinal name count optional) := by
  intro slot src
  have hoctet : StopsAtLengths awaits readInt8 := .fixed 1 _
  dsimp only [readOrdinal]
  split
  · exact .other rfl
  · exact hoctet slot src

/-- A unit behind its length, which goes on with its length or with one in its contents. -/
theorem StopsAtLengths.readSized {A : Type} {awaits : Place → A → Bool} {limit : Nat} {empty : A}
    {fill : Nat → A → Source → Reading A}
    (hkeeps : ∀ n a (src : Source), src.stack.SameField (fill n a src).source.stack)
    (hfill : ∀ a (src : Source), src.stack.top.fieldStarted = true →
      (fill src.stack.top.length a src).StopsAtLength awaits) (what : String) :
    StopsAtLengths (fun p slot => if p.top.fieldStarted then slot.any (awaits p) else true)
      (readSized limit what empty fill) := by
  have hresume : ∀ slot src, src.stack.top.fieldStarted = true →
      (resumeSized what fill slot src).StopsAtLength
        fun p slot => if p.top.fieldStarted then slot.any (awaits p) else true := by
    intro slot src hstarted hrefused
    cases slot with
    | none => cases hrefused
    | some a =>
      have hstarted' := (hkeeps src.stack.top.length a src).fieldStarted.trans hstarted
      exact (if_pos hstarted').trans (hfill a src hstarted hrefused)
  intro slot src
  unfold Wire.readSized
  by_cases hstarted : src.stack.top.fieldStarted = true
  · rw [if_pos hstarted]
    exact hresume slot src hstarted
  · rw [if_neg hstarted]
    split
    · exact .other rfl
    · split
      · exact fun _ => if_neg hstarted
      · exact .other rfl
      · exact hresume _ _ rfl

/-- Octets. -/
theorem StopsAtLengths.readBytes {limit : Nat} :
    StopsAtLengths (fun p _ => !p.top.fieldStarted) (readBytes limit) := by
  have hsized : StopsAtLengths
      (fun p slot => if p.top.fieldStarted then slot.any fun _ => false else true)
      (Wire.readBytes limit) :=
    .readSized (fun n => (Resumable.fillBytes n).keeps)
      (fun _ _ _ => .other (Progress.refusesLength_ofComplete _)) _
  simpa using hsized

/-- Numbers. -/
theorem StopsAtLengths.readLongs {limit : Nat} :
    StopsAtLengths (fun p _ => !p.top.fieldStarted) (readLongs limit) := by
  have hsized : StopsAtLengths
      (fun p slot => if p.top.fieldStarted then slot.any fun _ => false else true)
      (Wire.readLongs limit) :=
    .readSized (fun n => (Resumable.fillLongs n).keeps)
      (fun _ _ _ => .other (Progress.refusesLength_ofComplete _)) _
  simpa using hsized

/-- A text field. It fails for a length if its octets do. -/
theorem StopsAtLengths.readTextField {limit : Nat} (onNull : NullText) :
    StopsAtLengths (fun p _ => !p.top.fieldStarted) (readTextField limit onNull) := by
  have htext : StopsAtLengths (fun p _ => !p.top.fieldStarted) (readText limit) := by
    intro slot src
    have hbytes : (Wire.readBytes limit slot.staged src).StopsAtLength
        fun p _ => !p.top.fieldStarted := StopsAtLengths.readBytes slot.staged src
    unfold readText
    rcases hr : Wire.readBytes limit slot.staged src with ⟨_ | _ | e, _ | bs, src'⟩ <;>
      rw [hr] at hbytes
    · exact .other rfl
    · dsimp only
      split <;> exact .other rfl
    all_goals exact hbytes
  intro slot src
  have hslot := htext ⟨slot.staged, none⟩ src
  unfold Wire.readTextField
  rcases hr : readText limit ⟨slot.staged, none⟩ src with
    ⟨_ | _ | e, ⟨staged, _ | text⟩, src'⟩ <;> rw [hr] at hslot
  · cases onNull <;> exact .other rfl
  · exact .other rfl
  all_goals exact hslot

/-! ## Nested messages -/

section

variable {R : Type} {create : UInt16 → Option R} {read : R → Source → Reading R}
  {awaits : Place → R → Bool}

/-- Nothing is awaited in a message that never fails for a length. -/
theorem StopsAtLengths.never (h : StopsAtLengths awaits read)
    (hnot : ∀ p message, awaits p message = false) (message : R) (src : Source) :
    (read message src).progress.refusesLength = false := by
  cases hrefused : (read message src).progress.refusesLength with
  | false => rfl
  | true => exact (h message src hrefused).symm.trans (hnot _ _)

/-- A message that must be there and never fails for a length. -/
theorem StopsAtLengths.readRequired {awaits' : Place → R → Bool} {blank : R} {field : String}
    (h : ∀ message src, (read message src).progress.refusesLength = false) :
    StopsAtLengths awaits' (readRequired create blank read field) := by
  intro slot src
  have hmessage :
      (Wire.readMessage create read (some slot) src).progress.refusesLength = false := by
    unfold Wire.readMessage
    split
    · exact h ..
    · split
      · rfl
      · dsimp only
        split
        · rfl
        · split
          · rfl
          · exact h ..
  unfold Wire.readRequired
  rcases hr : Wire.readMessage create read (some slot) src with ⟨_ | _ | e, _ | found, src'⟩ <;>
    rw [hr] at hmessage
  all_goals exact .other hmessage

variable (hread : Resumable FrameStack.SameOuter read) (h : StopsAtLengths awaits read)
include hread h

/-- A nested message that fails for a length stops at it one level down. -/
theorem StopsAtLengths.readNested :
    StopsAtLengths (fun p => awaits p.nested) (readNested read) := by
  intro message src hrefused
  have hkeeps := hread.keeps message { src with stack := src.stack.enter }
  have hawaits := h message { src with stack := src.stack.enter } hrefused
  have hstopped := Progress.not_advance_of_refusesLength hrefused
  simp only [Wire.readNested] at hstopped ⊢
  rw [hstopped]
  show awaits (FrameStack.enter _).place _ = true
  rw [FrameStack.enter_leave hkeeps]
  exact hawaits

/-- A message that may be absent. -/
theorem StopsAtLengths.readMessage :
    StopsAtLengths (fun p slot => p.top.messageStarted && slot.any (awaits p.nested))
      (readMessage create read) := by
  have hresume : ∀ slot src, src.stack.top.messageStarted = true →
      (resumeMessage read slot src).StopsAtLength
        fun p slot => p.top.messageStarted && slot.any (awaits p.nested) := by
    intro slot src hstarted
    cases slot with
    | none => exact .other rfl
    | some message =>
      intro hrefused
      have hawaits : awaits (Wire.readNested read message src).source.stack.place.nested
          (Wire.readNested read message src).slot = true :=
        StopsAtLengths.readNested hread h message src hrefused
      have htop := (readNested_stack hread message src).2
      have hstopped : (Wire.readNested read message src).progress.isAdvance = false :=
        Progress.not_advance_of_refusesLength hrefused
      simp only [resumeMessage, hstopped, Bool.false_eq_true, if_false, Option.any_some]
      rw [hawaits, Bool.and_true, FrameStack.place, htop, hstarted]
  intro slot src
  unfold Wire.readMessage
  split
  · next hstarted => exact hresume slot src hstarted
  · split
    · exact .other rfl
    · dsimp only
      split
      · exact .other rfl
      · split
        · exact .other rfl
        · exact hresume _ _ rfl

/-- An element of an array. -/
theorem StopsAtLengths.readElement :
    StopsAtLengths (fun p items => p.top.messageStarted && items.getLast?.any (awaits p.nested))
      (readElement create read) := by
  have hresume : ∀ items src, src.stack.top.messageStarted = true →
      (resumeElement read items src).StopsAtLength
        fun p items => p.top.messageStarted && items.getLast?.any (awaits p.nested) := by
    intro items src hstarted
    unfold resumeElement
    split
    · exact .other rfl
    · next item hlast =>
      intro hrefused
      have hawaits : awaits (Wire.readNested read item src).source.stack.place.nested
          (Wire.readNested read item src).slot = true :=
        StopsAtLengths.readNested hread h item src hrefused
      have htop := (readNested_stack hread item src).2
      have hstopped : (Wire.readNested read item src).progress.isAdvance = false :=
        Progress.not_advance_of_refusesLength hrefused
      simp only [hstopped, Bool.false_eq_true, if_false, List.getLast?_concat, Option.any_some]
      rw [hawaits, Bool.and_true, FrameStack.place, htop, hstarted]
  intro items src
  unfold Wire.readElement
  split
  · next hstarted => exact hresume items src hstarted
  · split
    · exact .other rfl
    · dsimp only
      split
      · exact .other rfl
      · split
        · exact .other rfl
        · exact hresume _ _ rfl

/-- The elements of an array that are still missing. The induction is on their number, which the
frame tells at every step: an element that fails is not the last one. -/
theorem StopsAtLengths.readElements (count : Nat) {items : List R} {src : Source}
    (hcount : count = src.stack.top.length - src.stack.top.position) :
    (readElements create read count items src).StopsAtLength fun p items =>
      decide (p.top.position < p.top.length) && p.top.messageStarted &&
        items.getLast?.any (awaits p.nested) := by
  induction count generalizing items src with
  | zero => exact .other rfl
  | succ count ih =>
    have helement : (Wire.readElement create read items src).StopsAtLength
        fun p items => p.top.messageStarted && items.getLast?.any (awaits p.nested) :=
      StopsAtLengths.readElement hread h items src
    have hparts : Resumable FrameStack.SameField (Wire.readElement create read) :=
      .readElement hread
    have hkeeps := hparts.keeps items src
    have hposition := readElement_position create hread items src
    simp only [Wire.readElements]
    cases hadvance : (Wire.readElement create read items src).progress.isAdvance with
    | true =>
      simp only [hadvance, if_true] at hposition
      refine ih ?_
      rw [hposition, hkeeps.length]
      omega
    | false =>
      intro hrefused
      simp only [hadvance, Bool.false_eq_true, if_false, Nat.add_zero] at hposition
      have hroom : (Wire.readElement create read items src).source.stack.top.position <
          (Wire.readElement create read items src).source.stack.top.length := by
        rw [hposition, hkeeps.length]
        omega
      simp only [Bool.false_eq_true, if_false] at hrefused ⊢
      have hawaits := helement hrefused
      dsimp only at hawaits
      rw [Bool.and_assoc, hawaits, Bool.and_true]
      exact decide_eq_true hroom

/-- An array of messages. -/
theorem StopsAtLengths.readMessages {limit : Nat} :
    StopsAtLengths (awaitsInArray awaits) (readMessages limit create read) := by
  have hsized : StopsAtLengths (fun p slot => if p.top.fieldStarted then slot.any fun items =>
      decide (p.top.position < p.top.length) && p.top.messageStarted &&
        items.getLast?.any (awaits p.nested) else true)
      (Wire.readMessages limit create read) :=
    .readSized (fun _ items src => (readElements_keeps hread _ items src).1)
      (fun _ _ _ => StopsAtLengths.readElements hread h _ rfl) _
  intro slot src hrefused
  have hawaits := hsized slot src hrefused
  unfold awaitsInArray
  cases hslot : (Wire.readMessages limit create read slot src).slot with
  | none => simpa [hslot] using hawaits
  | some items => simpa [hslot] using hawaits

end

/-! ## Messages -/

/-- A header has no length. -/
theorem readHeader_refusesLength (type : UInt16) (fieldCount : Nat) (src : Source) :
    (readHeader type fieldCount src).progress.refusesLength = false := by
  unfold readHeader
  split
  · rfl
  · split
    · rfl
    · split
      · next e hcheck =>
        unfold checkHeader at hcheck
        dsimp only at hcheck
        repeat' split at hcheck
        all_goals cases hcheck <;> rfl
      · rfl

/-- Whether settling a message never fails for a length. -/
def Layout.SettlesPlainly : {R : Type} → Layout R → Prop
  | _, .message _ _ settle => ∀ slots, (Progress.ofCheck (settle slots).1).refusesLength = false

/-- Fields whose readers stop at lengths that they refuse, and that tell how far they came. -/
def Fields.StopsAtLengths {S : Type} (fields : Fields S) (limit : Nat) : Prop :=
  ∀ tag skip slots src,
    let r := fields.read limit tag skip slots src
    r.progress.refusesLength = true →
    ∃ more, r.source.stack.top.state = src.stack.top.state + more ∧
      fields.awaitsLength tag (skip + more) r.source.stack.place r.slot = true

/-- One field more in front. -/
theorem Fields.stopsAtLengths_cons {A S : Type} {limit : Nat} {field : Field A} {rest : Fields S}
    (hfield : ∀ tag, Wire.StopsAtLengths (field.awaitsLength tag) (field.read limit tag))
    (hrest : rest.StopsAtLengths limit) : (Fields.cons field rest).StopsAtLengths limit := by
  intro tag skip slots src
  cases skip with
  | succ skip =>
    intro r hrefused
    obtain ⟨more, hstate, hawaits⟩ := hrest (field.tag slots.1 tag) skip slots.2 src hrefused
    refine ⟨more, hstate, ?_⟩
    rw [Nat.add_right_comm]
    exact hawaits
  | zero =>
    have hslot := hfield tag slots.1 src
    have hkeeps := (field.resumable limit tag).keeps slots.1 src
    simp only [Fields.read]
    rcases hr : field.read limit tag slots.1 src with ⟨progress, slot, src'⟩
    rw [hr] at hslot hkeeps
    have hstate : src'.stack.top.state = src.stack.top.state := hkeeps.state
    cases hadvance : progress.isAdvance with
    | true =>
      let next : Source := { src' with stack := src'.stack.nextField }
      simp only [if_true]
      intro hrefused
      obtain ⟨more, hnext, hawaits⟩ := hrest (field.tag slot tag) 0 slots.2 next hrefused
      refine ⟨more + 1, ?_, ?_⟩
      · have hnext' : next.stack.top.state = src'.stack.top.state + 1 := rfl
        show (rest.read limit (field.tag slot tag) 0 slots.2 next).source.stack.top.state = _
        omega
      · rw [Nat.zero_add] at hawaits ⊢
        exact hawaits
    | false =>
      simp only [Bool.false_eq_true, if_false]
      exact fun hrefused => ⟨0, hstate, hslot hrefused⟩

/-- A message of some fields. -/
theorem Layout.stopsAtLengths_message {S : Type} {type : UInt16} {fields : Fields S} {limit : Nat}
    {settle : S → Except CodecError Unit × S} (hfields : fields.StopsAtLengths limit)
    (hsettle : (Layout.message type fields settle).SettlesPlainly) :
    StopsAtLengths (Layout.message type fields settle).awaitsLength
      ((Layout.message type fields settle).read limit) := by
  intro message src
  have hheader := readHeader_refusesLength type fields.count src
  have hdone := (readHeader_stack type fields.count src).2.2
  simp only [Layout.read]
  rcases hr : readHeader type fields.count src with ⟨progress, ⟨⟩, src'⟩
  rw [hr] at hheader hdone
  cases progress with
  | advance =>
    have hread := hfields (-1) src'.stack.top.state message.slots src'
    have hahead := (fields.resumable limit).keeps (-1) src'.stack.top.state message.slots src'
    simp only [Progress.isAdvance_advance, if_true]
    rcases hr' : fields.read limit (-1) src'.stack.top.state message.slots src' with
      ⟨progress', slots, src''⟩
    rw [hr'] at hread hahead
    cases hadvance : progress'.isAdvance with
    | true =>
      simp only [if_true]
      split
      · exact .other (hsettle slots)
      · unfold checkFieldCount
        split <;> exact .other rfl
    | false =>
      simp only [Bool.false_eq_true, if_false]
      intro hrefused
      obtain ⟨more, hmore, hawaits⟩ := hread hrefused
      rw [← hmore] at hawaits
      have hheaderDone : src''.stack.place.top.headerDone = true :=
        hahead.headerDone.trans (hdone rfl)
      have hflags : src''.stack.place.top.flags = src'.stack.top.flags := hahead.flags
      simp only [Layout.awaitsLength, hheaderDone, hflags, BEq.rfl, Bool.true_and]
      exact hawaits
  | incomplete => exact .other rfl
  | failed e => exact .other hheader

/-- An array that is handed over as a whole. -/
theorem Reading.StopsAtLength.store {R : Type} {awaits : Place → R → Bool}
    {r : Reading (Option (List R))} {slot : BatchSlot R}
    (h : r.StopsAtLength (awaitsInArray awaits)) :
    (slot.store r).StopsAtLength fun p slot => awaitsInArray awaits p slot.staged := by
  unfold BatchSlot.store
  split
  · next hadvance =>
    exact fun hrefused => absurd
      ((Progress.not_advance_of_refusesLength hrefused).symm.trans hadvance) Bool.false_ne_true
  · exact h

mutual
/-- A message is stopped by the lengths that it refuses, if the messages that must be there have
none. -/
theorem Layout.stopsAtLengths : {R : Type} → (layout : Layout R) →
    layout.Every Layout.RequiresFixed → layout.Every Layout.SettlesPlainly → (limit : Nat) →
    StopsAtLengths layout.awaitsLength (layout.read limit)
  | _, .message _ fields _, hfixed, hplain, limit =>
    Layout.stopsAtLengths_message (fields.stopsAtLengths hfixed.1 hfixed.2 hplain.2 limit) hplain.1
/-- Fields are stopped by the lengths that they refuse. -/
theorem Fields.stopsAtLengths : {S : Type} → (fields : Fields S) → fields.RequireFixed →
    fields.Every Layout.RequiresFixed → fields.Every Layout.SettlesPlainly → (limit : Nat) →
    fields.StopsAtLengths limit
  | _, .nil, _, _, _, _ => fun _ _ _ _ hrefused => absurd hrefused Bool.false_ne_true
  | _, .cons field rest, hfixed, hevery, hplain, limit =>
    Fields.stopsAtLengths_cons (field.stopsAtLengths hfixed.1 hevery.1 hplain.1 limit)
      (rest.stopsAtLengths hfixed.2 hevery.2 hplain.2 limit)
/-- A field is stopped by the lengths that it refuses. -/
theorem Field.stopsAtLengths : {A : Type} → (field : Field A) → field.RequiresFixed →
    field.Every Layout.RequiresFixed → field.Every Layout.SettlesPlainly → (limit : Nat) →
    (tag : Int8) → StopsAtLengths (field.awaitsLength tag) (field.read limit tag)
  | _, .flag, _, _, _, _, _ => .fixed 1 _
  | _, .ordinal name count optional _, _, _, _, _, _ => .ordinal name count optional
  | _, .int32, _, _, _, _, _ => .fixed 4 _
  | _, .int64, _, _, _, _, _ => .fixed 8 _
  | _, .uint128, _, _, _, _, _ => .fixed 16 _
  | _, .bytes, _, _, _, _, _ => .readBytes
  | _, .text onNull, _, _, _, _, _ => .readTextField onNull
  | _, .longs, _, _, _, _, _ => fun slot src => (StopsAtLengths.readLongs (some slot) src).map _
    fun _ _ h => h
  | _, .optional layout, _, hevery, hplain, limit, _ =>
    .readMessage (layout.resumable limit) (layout.stopsAtLengths hevery hplain limit)
  | _, .required _ layout, hfixed, hevery, hplain, limit, _ =>
    .readRequired ((layout.stopsAtLengths hevery hplain limit).never
      (layout.awaitsLength_fixed hfixed))
  | _, .array layout, _, hevery, hplain, limit, _ =>
    .readMessages (layout.resumable limit) (layout.stopsAtLengths hevery hplain limit)
  | _, .batch layout, _, hevery, hplain, limit, _ => fun slot src =>
    (StopsAtLengths.readMessages (layout.resumable limit)
      (layout.stopsAtLengths hevery hplain limit) slot.staged src).store
  | _, .keys layout, _, hevery, hplain, limit, _ => fun slot src =>
    (StopsAtLengths.readMessages (layout.resumable limit)
      (layout.stopsAtLengths hevery hplain limit) slot.inbound src).map _ fun _ _ h => h
  | _, .values selector value invocation, _, hevery, hplain, limit, tag => fun slot src => by
    by_cases htag : tag = selector
    · simp only [Field.read, if_pos htag]
      refine (StopsAtLengths.readMessages (invocation.resumable limit)
        (invocation.stopsAtLengths hevery.2 hplain.2 limit) slot.inboundInvocations src).map _
        fun p items h => ?_
      exact (if_pos htag).trans h
    · simp only [Field.read, if_neg htag]
      refine (StopsAtLengths.readMessages (value.resumable limit)
        (value.stopsAtLengths hevery.1 hplain.1 limit) slot.inboundValues src).map _
        fun p items h => ?_
      exact (if_neg htag).trans h
end

end Enlistment.Wire
