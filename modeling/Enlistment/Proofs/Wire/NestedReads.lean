import Enlistment.Proofs.Wire.MessageResumption

/-!
# The calls inside a call

A call on a message reads fields, and a field may hold messages, which are read by calls one
level down. This file lists these calls in their order, each with the frames and the octets it
starts with. The lists are computed from what the calls before leave behind, and a call depends
on the messages in it through the listed calls only.
-/

namespace Enlistment.Wire

/-- A call that has advanced is neither suspended nor failed. -/
theorem Progress.eq_advance {progress : Progress} (h : progress.isAdvance = true) :
    progress = .advance := by
  cases progress with
  | advance => rfl
  | _ => cases h

/-! ## Contents of units -/

/-- What the contents of a unit are read into, and from what, if a call comes to its contents. -/
def sizedContents {A : Type} (maxLength : Nat) (empty : A) (slot : Option A) (src : Source) :
    Option (A × Source) :=
  if src.stack.top.fieldStarted then slot.map fun a => (a, src)
  else if src.input.length < 4 then none
  else
    match decodeLength maxLength (int32Of (src.input.take 4)) with
    | .ok (some length) =>
      some (empty,
        (src.skip 4).modifyTop fun f => { f with fieldStarted := true, length := length })
    | _ => none

/-- The nested message that a call goes on with or starts, if it comes to one, and what the call
works on by then. `slot` holds the message that has been announced. -/
def nestedMessage {R : Type} (create : UInt16 → Option R) (slot : Option R) (src : Source) :
    Option (R × Source) :=
  if src.stack.top.messageStarted then slot.map fun message => (message, src)
  else if src.input.length < 2 then none
  else if uint16Of (src.input.take 2) = nullType then none
  else (create (uint16Of (src.input.take 2))).map fun message =>
    (message, src.modifyTop fun f => { f with messageStarted := true })

/-- The messages that a call on an array with `count` elements to come reads, and what each of
them is read from, before it is entered. -/
def elementMessages {R : Type} (create : UInt16 → Option R) (read : R → Source → Reading R) :
    (count : Nat) → List R → Source → List (R × Source)
  | 0, _, _ => []
  | count + 1, items, src =>
    (nestedMessage create items.getLast? src).toList ++
      (let r := readElement create read items src
       if r.progress.isAdvance then elementMessages create read count r.slot r.source else [])

section

variable {A R : Type} {maxLength : Nat} {empty : A} {create : UInt16 → Option R}
  {read : R → Source → Reading R} {src src' : Source}

/-- The contents of a unit are gone on with, or they are started behind their length. -/
theorem sizedContents_cases {slot : Option A} {a : A}
    (h : sizedContents maxLength empty slot src = some (a, src')) :
    (src.stack.top.fieldStarted = true ∧ slot = some a ∧ src' = src) ∨
      (src.stack.top.fieldStarted = false ∧ a = empty ∧ ∃ length, src'.stack =
        src.stack.modifyTop fun f => { f with fieldStarted := true, length := length }) := by
  unfold sizedContents at h
  split at h
  · next hstarted =>
    obtain ⟨a', rfl, heq⟩ := Option.map_eq_some_iff.mp h
    cases heq
    exact .inl ⟨hstarted, rfl, rfl⟩
  · next hstarted =>
    split at h
    · cases h
    · split at h
      · next length _ =>
        cases h
        exact .inr ⟨eq_false_of_ne_true hstarted, rfl, length, rfl⟩
      · cases h

/-- A nested message is gone on with, or it is created where none has been announced. -/
theorem nestedMessage_cases {slot : Option R} {message : R}
    (h : nestedMessage create slot src = some (message, src')) :
    (src.stack.top.messageStarted = true ∧ slot = some message ∧ src' = src) ∨
      (src.stack.top.messageStarted = false ∧ (∃ type, create type = some message) ∧
        src' = src.modifyTop fun f => { f with messageStarted := true }) := by
  unfold nestedMessage at h
  split at h
  · next hstarted =>
    obtain ⟨message', rfl, heq⟩ := Option.map_eq_some_iff.mp h
    cases heq
    exact .inl ⟨hstarted, rfl, rfl⟩
  · next hstarted =>
    split at h
    · cases h
    · split at h
      · cases h
      · obtain ⟨message', hcreate, heq⟩ := Option.map_eq_some_iff.mp h
        cases heq
        exact .inr ⟨eq_false_of_ne_true hstarted, ⟨_, hcreate⟩, rfl⟩

/-- A unit whose contents are come to is read by its contents. -/
theorem readSized_of_contents {slot : Option A} {a : A} (what : String)
    (fill : Nat → A → Source → Reading A)
    (h : sizedContents maxLength empty slot src = some (a, src')) :
    readSized maxLength what empty fill slot src =
      (fill src'.stack.top.length a src').map some := by
  unfold sizedContents at h
  unfold readSized
  split at h
  · next hstarted =>
    rw [if_pos hstarted]
    obtain ⟨a', rfl, heq⟩ := Option.map_eq_some_iff.mp h
    cases heq
    rfl
  · next hstarted =>
    rw [if_neg hstarted]
    split at h
    · cases h
    · next hlong =>
      rw [if_neg hlong]
      split at h
      · next hlength =>
        cases h
        rw [hlength]
        rfl
      · cases h

/-- A unit whose contents are not come to is absent, or waits for its length, or fails. -/
theorem readSized_of_idle {slot : Option A} (what : String) (fill : Nat → A → Source → Reading A)
    (h : sizedContents maxLength empty slot src = none) :
    let r := readSized maxLength what empty fill slot src
    r.source.stack = src.stack ∧ (r.progress = .incomplete → r.slot = slot) ∧
      ((∀ e, r.progress ≠ .failed e) → src.stack.top.fieldStarted = false) := by
  unfold sizedContents at h
  unfold readSized
  split at h
  · next hstarted =>
    rw [if_pos hstarted, Option.map_eq_none_iff.mp h]
    exact ⟨rfl, nofun, fun hno => absurd rfl (hno _)⟩
  · next hstarted =>
    have hidle := eq_false_of_ne_true hstarted
    rw [if_neg hstarted]
    split at h
    · next hshort =>
      rw [if_pos hshort]
      exact ⟨rfl, fun _ => rfl, fun _ => hidle⟩
    · next hlong =>
      rw [if_neg hlong]
      rcases hlength : decodeLength maxLength (int32Of (src.input.take 4)) with e | (_ | length)
      · exact ⟨rfl, nofun, fun _ => hidle⟩
      · exact ⟨rfl, nofun, fun _ => hidle⟩
      · simp [hlength] at h

/-- A message that is come to is read one level down. -/
theorem readMessage_of_nested {slot : Option R} {message : R} (read : R → Source → Reading R)
    (h : nestedMessage create slot src = some (message, src')) :
    readMessage create read slot src = resumeMessage read (some message) src' := by
  unfold nestedMessage at h
  unfold readMessage
  split at h
  · next hstarted =>
    rw [if_pos hstarted]
    obtain ⟨message', rfl, heq⟩ := Option.map_eq_some_iff.mp h
    cases heq
    rfl
  · next hstarted =>
    rw [if_neg hstarted]
    split at h
    · cases h
    · next hlong =>
      rw [if_neg hlong]
      split at h
      · cases h
      · next hnull =>
        obtain ⟨message', hcreate, heq⟩ := Option.map_eq_some_iff.mp h
        cases heq
        simp only [if_neg hnull, hcreate]

/-- Where no message is come to, the field is absent, or waits for a type, or fails. -/
theorem readMessage_of_idle {slot : Option R} (read : R → Source → Reading R)
    (h : nestedMessage create slot src = none) :
    let r := readMessage create read slot src
    r.source.stack = src.stack ∧ (r.progress = .incomplete → r.slot = slot) ∧
      ((∀ e, r.progress ≠ .failed e) → src.stack.top.messageStarted = false) := by
  unfold nestedMessage at h
  unfold readMessage
  split at h
  · next hstarted =>
    rw [if_pos hstarted, Option.map_eq_none_iff.mp h]
    exact ⟨rfl, nofun, fun hno => absurd rfl (hno _)⟩
  · next hstarted =>
    have hidle := eq_false_of_ne_true hstarted
    rw [if_neg hstarted]
    split at h
    · next hshort =>
      rw [if_pos hshort]
      exact ⟨rfl, fun _ => rfl, fun _ => hidle⟩
    · next hlong =>
      rw [if_neg hlong]
      split at h
      · next hnull =>
        simp only [if_pos hnull]
        exact ⟨rfl, nofun, fun _ => hidle⟩
      · next hnull =>
        rw [if_neg hnull, Option.map_eq_none_iff.mp h]
        exact ⟨rfl, nofun, fun _ => hidle⟩

/-- An element that is come to is the last one of its array, and it is read one level down. -/
theorem readElement_of_nested {items : List R} {item : R} (read : R → Source → Reading R)
    (h : nestedMessage create items.getLast? src = some (item, src')) :
    readElement create read items src = resumeElement read
      ((if src.stack.top.messageStarted then items.dropLast else items) ++ [item]) src' := by
  unfold nestedMessage at h
  unfold readElement
  split at h
  · next hstarted =>
    obtain ⟨item', hlast, heq⟩ := Option.map_eq_some_iff.mp h
    cases heq
    rw [if_pos hstarted, if_pos hstarted]
    obtain ⟨front, rfl⟩ := List.getLast?_eq_some_iff.mp hlast
    rw [List.dropLast_concat]
  · next hstarted =>
    rw [if_neg hstarted, if_neg hstarted]
    split at h
    · cases h
    · next hlong =>
      rw [if_neg hlong]
      split at h
      · cases h
      · next hnull =>
        obtain ⟨item', hcreate, heq⟩ := Option.map_eq_some_iff.mp h
        cases heq
        simp only [if_neg hnull, hcreate]

/-- Where no element is come to, the array waits for a type, or it fails. -/
theorem readElement_of_idle {items : List R}
    (h : nestedMessage create items.getLast? src = none) : ∃ progress, progress ≠ .advance ∧
      (progress = .incomplete → src.stack.top.messageStarted = false) ∧
      ∀ read : R → Source → Reading R,
        readElement create read items src = ⟨progress, items, src⟩ := by
  have hfailed : ∀ e : CodecError, Progress.failed e ≠ .advance ∧
      (Progress.failed e = .incomplete → src.stack.top.messageStarted = false) := by
    intro e
    refine ⟨fun hcontra => ?_, fun hcontra => ?_⟩ <;> cases hcontra
  unfold nestedMessage at h
  unfold readElement
  split at h
  · next hstarted =>
    simp only [if_pos hstarted, resumeElement, Option.map_eq_none_iff.mp h]
    exact ⟨.failed _, (hfailed _).1, (hfailed _).2, fun _ => rfl⟩
  · next hstarted =>
    simp only [if_neg hstarted]
    split at h
    · next hshort =>
      simp only [if_pos hshort]
      refine ⟨.incomplete, fun hcontra => ?_, fun _ => eq_false_of_ne_true hstarted, fun _ => rfl⟩
      cases hcontra
    · next hlong =>
      simp only [if_neg hlong]
      split at h
      · next hnull =>
        simp only [if_pos hnull]
        exact ⟨.failed _, (hfailed _).1, (hfailed _).2, fun _ => rfl⟩
      · next hnull =>
        simp only [if_neg hnull, Option.map_eq_none_iff.mp h]
        exact ⟨.failed _, (hfailed _).1, (hfailed _).2, fun _ => rfl⟩

/-- A nested message is read by one call one level down. -/
theorem readNested_congr {read' : R → Source → Reading R} {message : R}
    (h : read' message { src with stack := src.stack.enter } =
      read message { src with stack := src.stack.enter }) :
    readNested read' message src = readNested read message src := by
  simp only [readNested, h]

/-- Nothing but the listed messages is read for the elements of an array: a reader that does the
same with them comes to the same. -/
theorem readElements_congr {read' : R → Source → Reading R} (count : Nat) {items : List R}
    (h : ∀ p ∈ elementMessages create read count items src,
      read' p.1 { p.2 with stack := p.2.stack.enter } =
        read p.1 { p.2 with stack := p.2.stack.enter }) :
    readElements create read' count items src = readElements create read count items src := by
  induction count generalizing items src with
  | zero => rfl
  | succ count ih =>
    simp only [elementMessages, List.forall_mem_append] at h
    obtain ⟨hfirst, hrest⟩ := h
    have helement : readElement create read' items src = readElement create read items src := by
      cases hnested : nestedMessage create items.getLast? src with
      | none =>
        obtain ⟨progress, -, -, hidle⟩ := readElement_of_idle hnested
        rw [hidle, hidle]
      | some p =>
        obtain ⟨item, src'⟩ := p
        rw [readElement_of_nested read' hnested, readElement_of_nested read hnested]
        simp only [resumeElement, List.getLast?_concat,
          readNested_congr (hfirst (item, src') (by simp [hnested]))]
    simp only [readElements, helement]
    split
    · next hadvance =>
      rw [if_pos hadvance] at hrest
      exact ih hrest
    · rfl

end

/-! ## Calls -/

/-- A call on a message, at the frames and with the octets it starts with. -/
structure ReadCall where
  {R : Type}
  layout : Layout R
  message : R
  source : Source

/-- A call on a field, at the frames and with the octets it starts with. `tag` is the last ordinal
before the field. -/
structure FieldCall where
  {A : Type}
  field : Field A
  tag : Int8
  slot : A
  source : Source

/-- The call on a nested message, one level down. -/
def Layout.enter {R : Type} (layout : Layout R) (message : R) (src : Source) : ReadCall :=
  ⟨layout, message, { src with stack := src.stack.enter }⟩

/-- The call that is made on the message of a field, if there is one. -/
def Layout.messageCalls {R : Type} (layout : Layout R) (slot : Option R) (src : Source) :
    List ReadCall :=
  (nestedMessage layout.create slot src).toList.map fun p => layout.enter p.1 p.2

/-- The calls that are made on the elements of an array. -/
def Layout.arrayCalls {R : Type} (layout : Layout R) (maxLength : Nat) (slot : Option (List R))
    (src : Source) : List ReadCall :=
  (sizedContents maxLength [] slot src).toList.flatMap fun contents =>
    (elementMessages layout.create (layout.read maxLength)
      (contents.2.stack.top.length - contents.2.stack.top.position) contents.1 contents.2).map
        fun p => layout.enter p.1 p.2

/-- The calls that a call on a field makes on the messages in it. -/
def Field.messageCalls (maxLength : Nat) : {A : Type} → Field A → (tag : Int8) → A → Source →
    List ReadCall
  | _, .optional layout, _, slot, src => layout.messageCalls slot src
  | _, .required _ layout, _, slot, src => layout.messageCalls (some slot) src
  | _, .array layout, _, slot, src => layout.arrayCalls maxLength slot src
  | _, .batch layout, _, slot, src => layout.arrayCalls maxLength slot.staged src
  | _, .keys layout, _, slot, src => layout.arrayCalls maxLength slot.inbound src
  | _, .values selector value invocation, tag, slot, src =>
    if tag = selector then invocation.arrayCalls maxLength slot.inboundInvocations src
    else value.arrayCalls maxLength slot.inboundValues src
  | _, _, _, _, _ => []

/-- The calls that a call on fields makes on each of them, behind those already read. -/
def Fields.calls (maxLength : Nat) : {S : Type} → Fields S → (tag : Int8) → (skip : Nat) → S →
    Source → List FieldCall
  | _, .nil, _, _, _, _ => []
  | _, .cons field rest, tag, skip + 1, slots, src =>
    rest.calls maxLength (field.tag slots.1 tag) skip slots.2 src
  | _, .cons field rest, tag, 0, slots, src =>
    let r := field.read maxLength tag slots.1 src
    ⟨field, tag, slots.1, src⟩ ::
      if r.progress.isAdvance then
        rest.calls maxLength (field.tag r.slot tag) 0 slots.2
          { r.source with stack := r.source.stack.nextField }
      else []

/-- The calls that a call on a message makes on its fields. -/
def Layout.fieldCalls (maxLength : Nat) : {R : Type} → Layout R → R → Source → List FieldCall
  | _, .message type fields _, record, src =>
    let header := readHeader type fields.count src
    if header.progress.isAdvance then
      fields.calls maxLength (-1) header.source.stack.top.state record.slots header.source
    else []

namespace FieldCall

/-- What comes of a call on a field. -/
def reading (maxLength : Nat) (c : FieldCall) : Reading c.A :=
  c.field.read maxLength c.tag c.slot c.source

/-- The calls on messages that a call on a field makes. -/
def messages (maxLength : Nat) (c : FieldCall) : List ReadCall :=
  c.field.messageCalls maxLength c.tag c.slot c.source

/-- The next call on the field, where this one has come to. -/
def again (maxLength : Nat) (c : FieldCall) (bs : Bytes) : FieldCall :=
  ⟨c.field, c.tag, (c.reading maxLength).slot, ⟨(c.reading maxLength).source.stack, bs⟩⟩

end FieldCall

namespace ReadCall

/-- What comes of a call on a message. -/
def reading (maxLength : Nat) (c : ReadCall) : Reading c.R :=
  c.layout.read maxLength c.message c.source

/-- The calls on fields that a call on a message makes. -/
def fields (maxLength : Nat) (c : ReadCall) : List FieldCall :=
  c.layout.fieldCalls maxLength c.message c.source

/-- The next call on the message, where this one has come to. -/
def again (maxLength : Nat) (c : ReadCall) (bs : Bytes) : ReadCall :=
  ⟨c.layout, (c.reading maxLength).slot, ⟨(c.reading maxLength).source.stack, bs⟩⟩

/-- Whether a call on a message is made within another one. The path holds the calls on the
messages around it, the nearest first. -/
inductive Within (maxLength : Nat) (c : ReadCall) : (path : List ReadCall) → ReadCall → Prop
  | self : Within maxLength c [] c
  | nested {path : List ReadCall} {outer inner : ReadCall} {field : FieldCall}
      (houter : Within maxLength c path outer) (hfield : field ∈ outer.fields maxLength)
      (hinner : inner ∈ field.messages maxLength) : Within maxLength c (outer :: path) inner

/-- A message that nothing has been read of, where nothing is under way. -/
structure Fresh (c : ReadCall) : Prop where
  message : c.message = c.layout.blank
  stack : c.source.stack.AtMessage

end ReadCall

end Enlistment.Wire
