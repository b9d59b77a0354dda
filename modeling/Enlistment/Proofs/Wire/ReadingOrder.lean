import Enlistment.Proofs.Wire.Caps
import Enlistment.Proofs.Wire.NestedReads
import Enlistment.Proofs.Wire.Settling

/-!
# Frames of a reader

A reader that has not failed stands at a field of every message it is inside of. The frame of
that message tells how much of the field has come, and the slot holds just as much. Messages that
are not suspended have left no trace in the frames. One call keeps this as long as it does not
fail, and it starts every call inside it in the same order.
-/

namespace Enlistment.Wire

/-! ## Places in order -/

/-- Whether nothing is under way at a place: its field has not been started, and nothing is
suspended below it. -/
structure Place.AtRest (p : Place) : Prop where
  fieldStarted : p.top.fieldStarted = false
  messageStarted : p.top.messageStarted = false
  position : p.top.position = 0
  length : p.top.length = 0
  deeper : ∀ f ∈ p.deeper, f = {}

/-- Whether octets or numbers have come in order at a place, as many of them as the slot holds:
never more than the length they have declared. -/
structure SizedInOrder {A : Type} (size : A → Nat) (p : Place) (slot : Option A) : Prop where
  messageStarted : p.top.messageStarted = false
  position : p.top.position = 0
  deeper : ∀ f ∈ p.deeper, f = {}
  undeclared : p.top.fieldStarted = false → p.top.length = 0
  filled : p.top.fieldStarted = true → ∃ a, slot = some a ∧ size a ≤ p.top.length

/-- Whether the message that has been announced at a place is in order one level down. Where none
has been announced, none is suspended. -/
structure NestedInOrder {R : Type} (inOrder : Place → R → Prop) (p : Place) (slot : Option R) :
    Prop where
  waiting : p.top.messageStarted = false → ∀ f ∈ p.deeper, f = {}
  suspended : p.top.messageStarted = true →
    ∃ message, slot = some message ∧ inOrder p.nested message

/-- Whether a message has come in order at a place. It has no length and no position. -/
structure MessageInOrder {R : Type} (inOrder : Place → R → Prop) (p : Place) (slot : Option R) :
    Prop extends NestedInOrder inOrder p slot where
  fieldStarted : p.top.fieldStarted = false
  position : p.top.position = 0
  length : p.top.length = 0

/-- Whether the elements of an array have come in order at a place: as many as have been counted
and announced, and never more than declared. -/
structure ItemsInOrder {R : Type} (inOrder : Place → R → Prop) (p : Place)
    (slot : Option (List R)) : Prop where
  undeclared : p.top.fieldStarted = false → p.AtRest
  counted : p.top.fieldStarted = true → ∃ items, slot = some items ∧
    items.length = p.top.position + p.top.messageStarted.toNat ∧ items.length ≤ p.top.length
  last : NestedInOrder inOrder p (slot.bind List.getLast?)

mutual
/-- Whether a message has been read in order up to a place. -/
def Layout.ReadsInOrder : {R : Type} → Layout R → Place → R → Prop
  | _, .message _ fields _, p, message =>
    p.top.state ≤ fields.count ∧ fields.ReadsInOrder (-1) p.top.state p message.slots
/-- Whether fields have been read in order up to a place in the one behind the first `skip`.
`tag` is the last ordinal before the fields. -/
def Fields.ReadsInOrder : {S : Type} → Fields S → (tag : Int8) → (skip : Nat) → Place → S → Prop
  | _, .nil, _, _, p, _ => p.AtRest
  | _, .cons field rest, tag, skip + 1, p, slots =>
    rest.ReadsInOrder (field.tag slots.1 tag) skip p slots.2
  | _, .cons field _, tag, 0, p, slots => field.ReadsInOrder tag p slots.1
/-- Whether a field has been read in order up to a place. -/
def Field.ReadsInOrder : {A : Type} → Field A → (tag : Int8) → Place → A → Prop
  | _, .flag, _, p, _ => p.AtRest
  | _, .ordinal _ _ _ _, _, p, _ => p.AtRest
  | _, .int32, _, p, _ => p.AtRest
  | _, .int64, _, p, _ => p.AtRest
  | _, .uint128, _, p, _ => p.AtRest
  | _, .bytes, _, p, slot => SizedInOrder List.length p slot
  | _, .text _, _, p, slot => SizedInOrder List.length p slot.staged
  | _, .longs, _, p, slot => SizedInOrder List.length p (some slot)
  | _, .optional layout, _, p, slot => MessageInOrder layout.ReadsInOrder p slot
  | _, .required _ layout, _, p, slot => MessageInOrder layout.ReadsInOrder p (some slot)
  | _, .array layout, _, p, slot => ItemsInOrder layout.ReadsInOrder p slot
  | _, .batch layout, _, p, slot => ItemsInOrder layout.ReadsInOrder p slot.staged
  | _, .keys layout, _, p, slot => ItemsInOrder layout.ReadsInOrder p slot.inbound
  | _, .values selector value invocation, tag, p, slot =>
    if tag = selector then ItemsInOrder invocation.ReadsInOrder p slot.inboundInvocations
    else ItemsInOrder value.ReadsInOrder p slot.inboundValues
end

/-! ## Where nothing is under way -/

namespace Place.AtRest

variable {p : Place}

/-- Octets that have not been declared are in order. -/
theorem sizedInOrder (h : p.AtRest) {A : Type} (size : A → Nat) (slot : Option A) :
    SizedInOrder size p slot :=
  ⟨h.messageStarted, h.position, h.deeper, fun _ => h.length,
    fun hstarted => absurd (h.fieldStarted.symm.trans hstarted) Bool.false_ne_true⟩

/-- No message is suspended. -/
theorem nestedInOrder (h : p.AtRest) {R : Type} (inOrder : Place → R → Prop) (slot : Option R) :
    NestedInOrder inOrder p slot :=
  ⟨fun _ => h.deeper,
    fun hstarted => absurd (h.messageStarted.symm.trans hstarted) Bool.false_ne_true⟩

/-- A message that has not been announced is in order. -/
theorem messageInOrder (h : p.AtRest) {R : Type} (inOrder : Place → R → Prop) (slot : Option R) :
    MessageInOrder inOrder p slot :=
  ⟨h.nestedInOrder inOrder slot, h.fieldStarted, h.position, h.length⟩

/-- An array that has not been declared is in order. -/
theorem itemsInOrder (h : p.AtRest) {R : Type} (inOrder : Place → R → Prop)
    (slot : Option (List R)) : ItemsInOrder inOrder p slot :=
  ⟨fun _ => h, fun hstarted => absurd (h.fieldStarted.symm.trans hstarted) Bool.false_ne_true,
    h.nestedInOrder inOrder _⟩

end Place.AtRest

/-- A field that has not been started is in order, whatever its slot holds. -/
theorem Field.readsInOrder_of_atRest {A : Type} (field : Field A) (tag : Int8) {p : Place}
    (h : p.AtRest) (slot : A) : field.ReadsInOrder tag p slot := by
  cases field with
  | bytes => exact h.sizedInOrder _ _
  | text onNull => exact h.sizedInOrder _ _
  | longs => exact h.sizedInOrder _ _
  | optional layout => exact h.messageInOrder _ _
  | required name layout => exact h.messageInOrder _ _
  | array layout => exact h.itemsInOrder _ _
  | batch layout => exact h.itemsInOrder _ _
  | keys layout => exact h.itemsInOrder _ _
  | values selector value invocation =>
    unfold ReadsInOrder
    split
    · exact h.itemsInOrder _ _
    · exact h.itemsInOrder _ _
  | _ => exact h

/-- Fields of which none has been started are in order, whatever their slots hold. -/
theorem Fields.readsInOrder_of_atRest : {S : Type} → (fields : Fields S) → (tag : Int8) →
    (skip : Nat) → {p : Place} → p.AtRest → (slots : S) → fields.ReadsInOrder tag skip p slots
  | _, .nil, _, _, _, h, _ => h
  | _, .cons field _, tag, 0, _, h, slots => field.readsInOrder_of_atRest tag h slots.1
  | _, .cons field rest, tag, skip + 1, _, h, slots =>
    rest.readsInOrder_of_atRest (field.tag slots.1 tag) skip h slots.2

/-- At the start of a message nothing is under way. -/
theorem FrameStack.AtMessage.atRest {s : FrameStack} (h : s.AtMessage) : s.place.AtRest := by
  refine ⟨?_, ?_, ?_, ?_, h.fresh⟩ <;> rw [FrameStack.place, h.top]

/-- At the start of a field nothing is under way. -/
theorem FrameStack.Fresh.nextField_atRest {s : FrameStack} (h : s.Fresh) :
    s.nextField.place.AtRest :=
  ⟨rfl, rfl, rfl, rfl, h⟩

/-- A message that is started where nothing is under way is in order. -/
theorem Layout.readsInOrder_of_atMessage {R : Type} (layout : Layout R) (s : FrameStack)
    (message : R) (h : s.AtMessage) : layout.ReadsInOrder s.place message := by
  cases layout with
  | message type fields settle =>
    refine ⟨?_, fields.readsInOrder_of_atRest _ _ h.atRest message.slots⟩
    rw [FrameStack.place, h.top]
    exact Nat.zero_le _

/-! ## Units -/

/-- What a call on a unit leaves unless it fails: a slot that is in order where the call was
suspended, and nothing suspended below once the unit is complete. -/
structure Reading.InOrder {A : Type} (inOrder : Place → A → Prop) (r : Reading A) : Prop where
  suspended : r.progress = .incomplete → inOrder r.source.stack.place r.slot
  finished : r.progress = .advance → r.source.stack.Fresh

/-- A reader that leaves in order what is in order. -/
def KeepsOrder {A : Type} (inOrder : Place → A → Prop) (read : A → Source → Reading A) : Prop :=
  ∀ slot src, inOrder src.stack.place slot → (read slot src).InOrder inOrder

/-- A call that fails leaves nothing to go on with. -/
theorem Reading.InOrder.failed {A : Type} {inOrder : Place → A → Prop} {r : Reading A}
    {e : CodecError} (h : r.progress = .failed e) : r.InOrder inOrder :=
  ⟨fun hincomplete => absurd (h.symm.trans hincomplete) nofun,
    fun hadvance => absurd (h.symm.trans hadvance) nofun⟩

/-- A call that is suspended leaves something to go on with. -/
theorem Reading.InOrder.suspend {A : Type} {inOrder : Place → A → Prop} {r : Reading A}
    (h : r.progress = .incomplete) (horder : inOrder r.source.stack.place r.slot) :
    r.InOrder inOrder :=
  ⟨fun _ => horder, fun hadvance => absurd (h.symm.trans hadvance) nofun⟩

/-- A call that comes to the end leaves nothing suspended below. -/
theorem Reading.InOrder.finish {A : Type} {inOrder : Place → A → Prop} {r : Reading A}
    (h : r.progress = .advance) (hfresh : r.source.stack.Fresh) : r.InOrder inOrder :=
  ⟨fun hincomplete => absurd (h.symm.trans hincomplete) nofun, fun _ => hfresh⟩

/-- A slot that is part of a larger one. -/
theorem Reading.InOrder.map {A B : Type} {inOrder : Place → A → Prop}
    {inOrder' : Place → B → Prop} {r : Reading A} (h : r.InOrder inOrder) (f : A → B)
    (hf : ∀ p a, inOrder p a → inOrder' p (f a)) : (r.map f).InOrder inOrder' :=
  ⟨fun hincomplete => hf _ _ (h.suspended hincomplete), h.finished⟩

/-- A unit without a length. -/
theorem KeepsOrder.fixed {A : Type} (width : Nat) (decode : Bytes → A) :
    KeepsOrder (fun p _ => p.AtRest) (readFixed width decode) := by
  intro slot src h
  have hstack : (readFixed width decode slot src).source.stack = src.stack := by
    unfold readFixed
    split <;> rfl
  exact ⟨fun _ => by rwa [hstack], fun _ => by rw [hstack]; exact h.deeper⟩

/-- An ordinal. -/
theorem KeepsOrder.ordinal (name : String) (count : Nat) (optional : Bool) :
    KeepsOrder (fun p _ => p.AtRest) (readOrdinal name count optional) := by
  intro slot src h
  have hoctet : KeepsOrder (fun p _ => p.AtRest) readInt8 := .fixed 1 _
  unfold readOrdinal
  dsimp only
  split
  · exact .failed rfl
  · exact hoctet slot src h

/-- A unit behind its length. -/
theorem KeepsOrder.readSized {A : Type} {inOrder : Place → Option A → Prop} {maxLength : Nat}
    {empty : A} {fill : Nat → A → Source → Reading A}
    (hfresh : ∀ s : FrameStack, ∀ slot, s.top.fieldStarted = false → inOrder s.place slot → s.Fresh)
    (hstart : ∀ (s : FrameStack) slot length, s.top.fieldStarted = false → inOrder s.place slot →
      inOrder (s.modifyTop fun f => { f with fieldStarted := true, length := length }).place
        (some empty))
    (hfill : ∀ a src, src.stack.top.fieldStarted = true → inOrder src.stack.place (some a) →
      (fill src.stack.top.length a src).InOrder fun p a => inOrder p (some a))
    (what : String) : KeepsOrder inOrder (readSized maxLength what empty fill) := by
  intro slot src h
  cases hcontents : sizedContents maxLength empty slot src with
  | none =>
    obtain ⟨hstack, hslot, hidle⟩ := readSized_of_idle what fill hcontents
    refine ⟨fun hincomplete => ?_, fun hadvance => ?_⟩
    · rwa [hstack, hslot hincomplete]
    · rw [hstack]
      exact hfresh _ slot (hidle (by rw [hadvance]; nofun)) h
  | some contents =>
    obtain ⟨a, src'⟩ := contents
    rw [readSized_of_contents what fill hcontents]
    refine Reading.InOrder.map (hfill a src' ?_ ?_) some fun _ _ h => h
    · obtain ⟨hstarted, -, rfl⟩ | ⟨-, -, length, hstack⟩ := sizedContents_cases hcontents
      · exact hstarted
      · rw [hstack]
        rfl
    · obtain ⟨-, rfl, rfl⟩ | ⟨hstarted, rfl, length, hstack⟩ := sizedContents_cases hcontents
      · exact h
      · rw [hstack]
        exact hstart _ slot length hstarted h

namespace SizedInOrder

variable {A : Type} {size : A → Nat}

/-- A slot is filled up to the declared length at most, and the frames stay as they are. -/
theorem refill {s : FrameStack} {a a' : A} (hstarted : s.top.fieldStarted = true)
    (h : SizedInOrder size s.place (some a)) (hle : size a' ≤ s.top.length) :
    SizedInOrder size s.place (some a') :=
  ⟨h.messageStarted, h.position, h.deeper,
    fun hcontra => absurd (hcontra.symm.trans hstarted) Bool.false_ne_true,
    fun _ => ⟨a', rfl, hle⟩⟩

/-- What has been filled in is within the declared length. -/
theorem le_length {s : FrameStack} {a : A} (hstarted : s.top.fieldStarted = true)
    (h : SizedInOrder size s.place (some a)) : size a ≤ s.top.length := by
  obtain ⟨a', heq, hle⟩ := h.filled hstarted
  rwa [Option.some.inj heq]

/-- A unit behind its length, if its contents are filled in up to their declared length. -/
theorem keepsOrder {maxLength : Nat} {empty : A} {fill : Nat → A → Source → Reading A}
    (hempty : size empty = 0)
    (hfill : ∀ a src, size a ≤ src.stack.top.length →
      (fill src.stack.top.length a src).source.stack = src.stack ∧
        size (fill src.stack.top.length a src).slot ≤ src.stack.top.length)
    (what : String) :
    KeepsOrder (SizedInOrder size) (Wire.readSized maxLength what empty fill) := by
  refine .readSized (fun s slot _ h => h.deeper) (fun s slot length _ h => ?_)
    (fun a src hstarted h => ?_) what
  · refine ⟨h.messageStarted, h.position, h.deeper, nofun, fun _ => ⟨empty, rfl, ?_⟩⟩
    rw [hempty]
    exact Nat.zero_le _
  · obtain ⟨hstack, hle⟩ := hfill a src (h.le_length hstarted)
    refine ⟨fun _ => ?_, fun _ => ?_⟩ <;> rw [hstack]
    · exact h.refill hstarted hle
    · exact h.deeper

end SizedInOrder

/-- A byte string. -/
theorem KeepsOrder.readBytes (maxLength : Nat) :
    KeepsOrder (SizedInOrder List.length) (readBytes maxLength) := by
  have hfill : ∀ (bs : Bytes) (src : Source), bs.length ≤ src.stack.top.length →
      (fillBytes src.stack.top.length bs src).source.stack = src.stack ∧
        (fillBytes src.stack.top.length bs src).slot.length ≤ src.stack.top.length := by
    intro bs src hle
    refine ⟨rfl, ?_⟩
    simp only [fillBytes, if_neg (Nat.not_lt.mpr hle), List.length_append, List.length_take]
    omega
  exact SizedInOrder.keepsOrder List.length_nil hfill _

/-- An array of numbers. -/
theorem KeepsOrder.readLongs (maxLength : Nat) :
    KeepsOrder (SizedInOrder List.length) (readLongs maxLength) := by
  have hfill : ∀ (items : List Int64) (src : Source), items.length ≤ src.stack.top.length →
      (fillLongs src.stack.top.length items src).source.stack = src.stack ∧
        (fillLongs src.stack.top.length items src).slot.length ≤ src.stack.top.length := by
    intro items src hle
    refine ⟨rfl, ?_⟩
    simp only [fillLongs, List.length_append, length_takeLongs]
    omega
  exact SizedInOrder.keepsOrder List.length_nil hfill _

/-- A text. Its octets are staged until all of them have come. -/
theorem KeepsOrder.readText (maxLength : Nat) :
    KeepsOrder (fun p slot => SizedInOrder List.length p slot.staged) (readText maxLength) := by
  intro slot src h
  have hbytes := KeepsOrder.readBytes maxLength slot.staged src h
  unfold Wire.readText
  rcases hr : Wire.readBytes maxLength slot.staged src with ⟨_ | _ | e, _ | bs, src'⟩ <;>
    rw [hr] at hbytes
  · exact .finish rfl (hbytes.finished rfl)
  · dsimp only
    split
    · exact .finish rfl (hbytes.finished rfl)
    · exact .failed rfl
  · exact .suspend rfl (hbytes.suspended rfl)
  · exact .suspend rfl (hbytes.suspended rfl)
  · exact .failed rfl
  · exact .failed rfl

/-- A text field. -/
theorem KeepsOrder.readTextField (maxLength : Nat) (onNull : NullText) :
    KeepsOrder (fun p slot => SizedInOrder List.length p slot.staged)
      (readTextField maxLength onNull) := by
  intro slot src h
  have htext := KeepsOrder.readText maxLength ⟨slot.staged, none⟩ src h
  unfold Wire.readTextField
  rcases hr : Wire.readText maxLength ⟨slot.staged, none⟩ src with
    ⟨_ | _ | e, ⟨staged, _ | text⟩, src'⟩ <;> rw [hr] at htext
  · cases onNull with
    | refuse fault => exact .failed rfl
    | _ => exact .finish rfl (htext.finished rfl)
  · exact .finish rfl (htext.finished rfl)
  · exact .suspend rfl (htext.suspended rfl)
  · exact .suspend rfl (htext.suspended rfl)
  · exact .failed rfl
  · exact .failed rfl

/-! ## Nested messages -/

section

variable {R : Type} {create : UInt16 → Option R} {read : R → Source → Reading R}
  {inOrder : Place → R → Prop}

/-- A message that a call comes to is in order one level down, and it starts afresh if it has not
been announced before. Announcing it changes nothing else. -/
theorem NestedInOrder.nestedMessage {slot : Option R} {src src' : Source} {message : R}
    (h : NestedInOrder inOrder src.stack.place slot)
    (hcreate : ∀ (s : FrameStack) message, s.AtMessage → inOrder s.place message)
    (hnested : nestedMessage create slot src = some (message, src')) :
    src'.stack = src.stack.modifyTop (fun f => { f with messageStarted := true }) ∧
      inOrder src'.stack.enter.place message := by
  obtain ⟨hstarted, rfl, rfl⟩ | ⟨hidle, -, rfl⟩ := nestedMessage_cases hnested
  · obtain ⟨message', heq, horder⟩ := h.suspended hstarted
    obtain rfl := Option.some.inj heq
    refine ⟨?_, horder⟩
    rw [FrameStack.modifyTop, ← hstarted]
  · have hfresh : src.stack.Fresh := h.waiting hidle
    exact ⟨rfl, hcreate _ message (FrameStack.Fresh.enter hfresh)⟩

/-- Coming to the end of a nested message, or stopping in it. -/
theorem readNested_inOrder (hread : Resumable FrameStack.SameOuter read)
    (h : KeepsOrder inOrder read) {message : R} {src : Source}
    (hmessage : inOrder src.stack.enter.place message) :
    let r := readNested read message src
    (r.progress = .incomplete → inOrder r.source.stack.place.nested r.slot) ∧
      (r.progress = .advance → r.source.stack.Fresh) := by
  have houter := hread.keeps message { src with stack := src.stack.enter }
  have horder := h message { src with stack := src.stack.enter } hmessage
  refine ⟨fun hincomplete => ?_, fun hadvance => ?_⟩
  · have hslot := horder.suspended hincomplete
    rw [← FrameStack.enter_leave houter] at hslot
    simp only [readNested] at hincomplete ⊢
    rwa [hincomplete]
  · have hfresh := horder.finished hadvance
    simp only [readNested] at hadvance ⊢
    rw [hadvance]
    exact hfresh.leave

/-- A message that has been announced. -/
theorem resumeMessage_inOrder (hread : Resumable FrameStack.SameOuter read)
    (h : KeepsOrder inOrder read) {message : R} {src : Source}
    (hstarted : src.stack.top.messageStarted = true) (hfield : src.stack.top.fieldStarted = false)
    (hposition : src.stack.top.position = 0) (hlength : src.stack.top.length = 0)
    (hmessage : inOrder src.stack.enter.place message) :
    (resumeMessage read (some message) src).InOrder (MessageInOrder inOrder) := by
  obtain ⟨hsuspended, hfinished⟩ := readNested_inOrder hread h hmessage
  have htop := (readNested_stack hread message src).2
  simp only [resumeMessage]
  rcases hr : readNested read message src with ⟨_ | _ | e, message', src'⟩ <;>
    rw [hr] at hsuspended hfinished htop
  · exact .finish rfl (hfinished rfl)
  · refine .suspend rfl ?_
    have htop : src'.stack.top = src.stack.top := htop
    refine ⟨⟨fun hidle => ?_, fun _ => ⟨message', rfl, hsuspended rfl⟩⟩, ?_, ?_, ?_⟩ <;>
      simp only [Progress.isAdvance_incomplete, Bool.false_eq_true, if_false, FrameStack.place,
        htop] at *
    · exact absurd (hidle.symm.trans hstarted) Bool.false_ne_true
    · exact hfield
    · exact hposition
    · exact hlength
  · exact .failed rfl

variable (hread : Resumable FrameStack.SameOuter read) (h : KeepsOrder inOrder read)
  (hcreate : ∀ (s : FrameStack) message, s.AtMessage → inOrder s.place message)
include hread h hcreate

/-- A message that may be absent. -/
theorem KeepsOrder.readMessage :
    KeepsOrder (MessageInOrder inOrder) (readMessage create read) := by
  intro slot src hslot
  cases hnested : nestedMessage create slot src with
  | none =>
    obtain ⟨hstack, hkept, hidle⟩ := readMessage_of_idle read hnested
    refine ⟨fun hincomplete => ?_, fun hadvance => ?_⟩
    · rwa [hstack, hkept hincomplete]
    · rw [hstack]
      exact hslot.waiting (hidle (by rw [hadvance]; nofun))
  | some nested =>
    obtain ⟨message, src'⟩ := nested
    obtain ⟨hstack, hmessage⟩ := hslot.nestedMessage hcreate hnested
    rw [readMessage_of_nested read hnested]
    refine resumeMessage_inOrder hread h ?_ ?_ ?_ ?_ hmessage <;> rw [hstack]
    · rfl
    · exact hslot.fieldStarted
    · exact hslot.position
    · exact hslot.length

/-- A message that must be there. -/
theorem KeepsOrder.readRequired (blank : R) (field : String) :
    KeepsOrder (fun p slot => MessageInOrder inOrder p (some slot))
      (readRequired create blank read field) := by
  intro slot src hslot
  have hkeeps : KeepsOrder (MessageInOrder inOrder) (Wire.readMessage create read) :=
    .readMessage hread h hcreate
  have hmessage := hkeeps (some slot) src hslot
  unfold Wire.readRequired
  rcases hr : Wire.readMessage create read (some slot) src with ⟨_ | _ | e, _ | found, src'⟩ <;>
    rw [hr] at hmessage
  · exact .failed rfl
  · exact .finish rfl (hmessage.finished rfl)
  · obtain ⟨message, hcontra⟩ := readMessage_incomplete hr
    cases hcontra
  · exact .suspend rfl (hmessage.suspended rfl)
  · exact .failed rfl
  · exact .failed rfl

end

/-! ## Arrays of messages -/

section

variable {R : Type} {create : UInt16 → Option R} {read : R → Source → Reading R}
  {inOrder : Place → R → Prop}

/-- An array whose length is known has as many elements as have been counted and announced. -/
theorem ItemsInOrder.length_items {p : Place} {items : List R}
    (h : ItemsInOrder inOrder p (some items)) (hfield : p.top.fieldStarted = true) :
    items.length = p.top.position + p.top.messageStarted.toNat := by
  obtain ⟨items', heq, hcounted, -⟩ := h.counted hfield
  rwa [Option.some.inj heq]

/-- An element that is announced is one of those that were declared. -/
theorem ItemsInOrder.announced {s : FrameStack} {slot : Option (List R)}
    (h : ItemsInOrder inOrder s.place slot) (hstarted : s.top.messageStarted = true) :
    s.top.fieldStarted = true ∧ s.top.position < s.top.length := by
  have hfield : s.top.fieldStarted = true := eq_true_of_ne_false fun hidle =>
    absurd ((h.undeclared hidle).messageStarted.symm.trans hstarted) Bool.false_ne_true
  obtain ⟨items, -, hcounted, hle⟩ := h.counted hfield
  replace hcounted : items.length = s.top.position + s.top.messageStarted.toNat := hcounted
  replace hle : items.length ≤ s.top.length := hle
  rw [hstarted, Bool.toNat_true] at hcounted
  exact ⟨hfield, by omega⟩

/-- An array whose length has just been declared has no elements. -/
theorem ItemsInOrder.declared {s : FrameStack} (h : s.place.AtRest) (length : Nat) :
    ItemsInOrder inOrder
      (s.modifyTop fun f => { f with fieldStarted := true, length := length }).place
      (some []) := by
  refine ⟨nofun, fun _ => ⟨[], rfl, ?_, Nat.zero_le _⟩, fun _ => h.deeper, fun hstarted => ?_⟩
  · show 0 = s.top.position + s.top.messageStarted.toNat
    have hposition : s.top.position = 0 := h.position
    have hmessage : s.top.messageStarted = false := h.messageStarted
    rw [hposition, hmessage]
    rfl
  · exact absurd (h.messageStarted.symm.trans hstarted) Bool.false_ne_true

/-- The last element of an array, which has been announced. Once it is complete it is counted. -/
theorem resumeElement_inOrder (hread : Resumable FrameStack.SameOuter read)
    (h : KeepsOrder inOrder read) {front : List R} {item : R} {src : Source}
    (hfield : src.stack.top.fieldStarted = true) (hstarted : src.stack.top.messageStarted = true)
    (hcounted : front.length = src.stack.top.position)
    (hroom : src.stack.top.position < src.stack.top.length)
    (hitem : inOrder src.stack.enter.place item) :
    let r := resumeElement read (front ++ [item]) src
    (∀ e, r.progress ≠ .failed e) → ItemsInOrder inOrder r.source.stack.place (some r.slot) := by
  obtain ⟨hsuspended, hfinished⟩ := readNested_inOrder hread h hitem
  have htop := (readNested_stack hread item src).2
  simp only [resumeElement, List.getLast?_concat, List.dropLast_concat]
  rcases hr : readNested read item src with ⟨_ | _ | e, item', src'⟩ <;>
    rw [hr] at hsuspended hfinished htop
  · intro _
    have htop : src'.stack.top = src.stack.top := htop
    have hfield' : src'.stack.top.fieldStarted = true := htop ▸ hfield
    refine ⟨fun hidle => ?_, fun _ => ⟨_, rfl, ?_, ?_⟩, fun _ => hfinished rfl,
      fun hstarted' => absurd hstarted' Bool.false_ne_true⟩
    · exact absurd (hidle.symm.trans hfield') Bool.false_ne_true
    · show (front ++ [item']).length = src'.stack.top.position + 1 + 0
      rw [List.length_append, List.length_singleton, htop, hcounted]
    · show (front ++ [item']).length ≤ src'.stack.top.length
      rw [List.length_append, List.length_singleton, htop, hcounted]
      exact hroom
  · intro _
    have htop : src'.stack.top = src.stack.top := htop
    have hfield' : src'.stack.top.fieldStarted = true := htop ▸ hfield
    have hstarted' : src'.stack.top.messageStarted = true := htop ▸ hstarted
    refine ⟨fun hidle => ?_, fun _ => ⟨_, rfl, ?_, ?_⟩, fun hidle => ?_, fun _ => ?_⟩
    · exact absurd (hidle.symm.trans hfield') Bool.false_ne_true
    · show (front ++ [item']).length = src'.stack.top.position + src'.stack.top.messageStarted.toNat
      rw [List.length_append, List.length_singleton, hstarted', htop, hcounted]
      rfl
    · show (front ++ [item']).length ≤ src'.stack.top.length
      rw [List.length_append, List.length_singleton, htop, hcounted]
      exact hroom
    · exact absurd (hidle.symm.trans hstarted') Bool.false_ne_true
    · exact ⟨item', List.getLast?_concat, hsuspended rfl⟩
  · exact fun hno => absurd rfl (hno e)

variable (hread : Resumable FrameStack.SameOuter read) (h : KeepsOrder inOrder read)
  (hcreate : ∀ (s : FrameStack) message, s.AtMessage → inOrder s.place message)
include hread h hcreate

/-- One more element of an array that is not complete. -/
theorem readElement_inOrder (create : UInt16 → Option R) {items : List R} {src : Source}
    (hfield : src.stack.top.fieldStarted = true)
    (hroom : src.stack.top.position < src.stack.top.length)
    (hitems : ItemsInOrder inOrder src.stack.place (some items)) :
    let r := readElement create read items src
    (∀ e, r.progress ≠ .failed e) → ItemsInOrder inOrder r.source.stack.place (some r.slot) := by
  have hcounted := hitems.length_items hfield
  cases hnested : nestedMessage create items.getLast? src with
  | none =>
    obtain ⟨progress, -, -, hidle⟩ := readElement_of_idle hnested
    rw [hidle]
    exact fun _ => hitems
  | some nested =>
    obtain ⟨item, src'⟩ := nested
    obtain ⟨hstack, hitem⟩ := hitems.last.nestedMessage hcreate hnested
    rw [readElement_of_nested read hnested]
    refine resumeElement_inOrder hread h ?_ ?_ ?_ ?_ hitem <;> rw [hstack]
    · exact hfield
    · rfl
    · show _ = src.stack.top.position
      replace hcounted : items.length =
        src.stack.top.position + src.stack.top.messageStarted.toNat := hcounted
      cases hstarted : src.stack.top.messageStarted with
      | true =>
        rw [hstarted, Bool.toNat_true] at hcounted
        rw [if_pos rfl, List.length_dropLast]
        omega
      | false =>
        rw [hstarted, Bool.toNat_false] at hcounted
        exact hcounted
    · exact hroom

/-- As many elements as are missing from an array. The induction is on their number, which the
frame tells at every step. -/
theorem readElements_inOrder (count : Nat) {items : List R} {src : Source}
    (hcount : count = src.stack.top.length - src.stack.top.position)
    (hfield : src.stack.top.fieldStarted = true)
    (hitems : ItemsInOrder inOrder src.stack.place (some items)) :
    (readElements create read count items src).InOrder
      fun p items => ItemsInOrder inOrder p (some items) := by
  induction count generalizing items src with
  | zero =>
    refine .finish rfl (hitems.last.waiting ?_)
    -- all elements have been counted, so none is announced
    refine eq_false_of_ne_true fun hstarted => ?_
    have hroom := (hitems.announced hstarted).2
    omega
  | succ count ih =>
    have helement := readElement_inOrder hread h hcreate create hfield (by omega) hitems
    have hparts : Resumable FrameStack.SameField (readElement create read) := .readElement hread
    have hkeeps := hparts.keeps items src
    have hposition := readElement_position create hread items src
    simp only [readElements]
    rcases hr : readElement create read items src with ⟨_ | _ | e, items', src'⟩ <;>
      rw [hr] at helement hkeeps hposition
    · refine ih ?_ (hkeeps.fieldStarted.trans hfield) (helement fun _ hcontra => by cases hcontra)
      have hlength : src'.stack.top.length = src.stack.top.length := hkeeps.length
      have hposition : src'.stack.top.position = src.stack.top.position + 1 := hposition
      show count = src'.stack.top.length - src'.stack.top.position
      omega
    · exact .suspend rfl (helement fun _ hcontra => by cases hcontra)
    · exact .failed rfl

/-- An array of messages. -/
theorem KeepsOrder.readMessages (maxLength : Nat) :
    KeepsOrder (ItemsInOrder inOrder) (readMessages maxLength create read) := by
  refine .readSized (fun s slot hidle hslot => (hslot.undeclared hidle).deeper)
    (fun s slot length hidle hslot => .declared (hslot.undeclared hidle) length)
    (fun items src hfield hitems => ?_) _
  exact readElements_inOrder hread h hcreate _ rfl hfield hitems

end

/-! ## Messages -/

/-- A place with another header. -/
def Place.withHeader (p : Place) (done : Bool) (flags : UInt8) : Place :=
  { p with top := { p.top with headerDone := done, flags := flags } }

/-- Accepting a header starts no field. -/
theorem Place.AtRest.withHeader {p : Place} (h : p.AtRest) (done : Bool) (flags : UInt8) :
    (p.withHeader done flags).AtRest :=
  ⟨h.fieldStarted, h.messageStarted, h.position, h.length, h.deeper⟩

/-- Accepting a header moves no place. -/
theorem Field.readsInOrder_withHeader {A : Type} (field : Field A) {tag : Int8} {p : Place}
    {slot : A} (done : Bool) (flags : UInt8) (h : field.ReadsInOrder tag p slot) :
    field.ReadsInOrder tag (p.withHeader done flags) slot := by
  have hsized : ∀ {A : Type} {size : A → Nat} {slot : Option A}, SizedInOrder size p slot →
      SizedInOrder size (p.withHeader done flags) slot :=
    fun h => ⟨h.messageStarted, h.position, h.deeper, h.undeclared, h.filled⟩
  have hmessage : ∀ {R : Type} {inOrder : Place → R → Prop} {slot : Option R},
      MessageInOrder inOrder p slot → MessageInOrder inOrder (p.withHeader done flags) slot :=
    fun h => ⟨⟨h.waiting, h.suspended⟩, h.fieldStarted, h.position, h.length⟩
  have hitems : ∀ {R : Type} {inOrder : Place → R → Prop} {slot : Option (List R)},
      ItemsInOrder inOrder p slot → ItemsInOrder inOrder (p.withHeader done flags) slot :=
    fun h => ⟨fun hidle => (h.undeclared hidle).withHeader done flags, h.counted,
      ⟨h.last.waiting, h.last.suspended⟩⟩
  cases field with
  | bytes => exact hsized h
  | text onNull => exact hsized h
  | longs => exact hsized h
  | optional layout => exact hmessage h
  | required name layout => exact hmessage h
  | array layout => exact hitems h
  | batch layout => exact hitems h
  | keys layout => exact hitems h
  | values selector value invocation =>
    unfold ReadsInOrder at h ⊢
    split
    · next htag => exact hitems (by rwa [if_pos htag] at h)
    · next htag => exact hitems (by rwa [if_neg htag] at h)
  | _ => exact Place.AtRest.withHeader h done flags

/-- Accepting a header moves no place. -/
theorem Fields.readsInOrder_withHeader (done : Bool) (flags : UInt8) {p : Place} : {S : Type} →
    (fields : Fields S) → {tag : Int8} → {skip : Nat} → {slots : S} →
    fields.ReadsInOrder tag skip p slots →
    fields.ReadsInOrder tag skip (p.withHeader done flags) slots
  | _, .nil, _, _, _, h => Place.AtRest.withHeader h done flags
  | _, .cons field _, _, 0, _, h => field.readsInOrder_withHeader done flags h
  | _, .cons _ rest, _, _ + 1, _, h => rest.readsInOrder_withHeader done flags h

/-- A header leaves fields in order that are. -/
theorem readHeader_inOrder {S : Type} {fields : Fields S} (type : UInt16) (fieldCount : Nat)
    {src : Source} {tag : Int8} {skip : Nat} {slots : S}
    (h : fields.ReadsInOrder tag skip src.stack.place slots) :
    fields.ReadsInOrder tag skip (readHeader type fieldCount src).source.stack.place slots := by
  unfold readHeader
  split
  · exact h
  · split
    · exact h
    · split
      · exact h
      · exact fields.readsInOrder_withHeader _ _ h

/-- Fields whose readers keep them in order. A call that is suspended tells how far it came, and
one that completes them comes to the end of them. -/
def Fields.KeepsOrder {S : Type} (fields : Fields S) (maxLength : Nat) : Prop :=
  ∀ tag skip slots (src : Source), skip ≤ fields.count →
    fields.ReadsInOrder tag skip src.stack.place slots →
    let r := fields.read maxLength tag skip slots src
    (r.progress = .incomplete → ∃ more, r.source.stack.top.state = src.stack.top.state + more ∧
      skip + more ≤ fields.count ∧
      fields.ReadsInOrder tag (skip + more) r.source.stack.place r.slot) ∧
    (r.progress = .advance →
      r.source.stack.top.state + skip = src.stack.top.state + fields.count ∧
        r.source.stack.place.AtRest)

/-- One field more in front. -/
theorem Fields.keepsOrder_cons {A S : Type} {field : Field A} {rest : Fields S} {maxLength : Nat}
    (hfield : ∀ tag, Wire.KeepsOrder (field.ReadsInOrder tag) (field.read maxLength tag))
    (hrest : rest.KeepsOrder maxLength) : (Fields.cons field rest).KeepsOrder maxLength := by
  intro tag skip slots src hskip hslots
  cases skip with
  | succ skip =>
    obtain ⟨hsuspended, hfinished⟩ := hrest (field.tag slots.1 tag) skip slots.2 src
      (Nat.le_of_succ_le_succ hskip) hslots
    refine ⟨fun hincomplete => ?_, fun hadvance => ?_⟩
    · obtain ⟨more, hstate, hmore, horder⟩ := hsuspended hincomplete
      refine ⟨more, hstate, ?_, ?_⟩
      · simp only [Fields.count]
        omega
      · rw [Nat.add_right_comm]
        exact horder
    · obtain ⟨hstate, hrest⟩ := hfinished hadvance
      refine ⟨?_, hrest⟩
      show (rest.read maxLength (field.tag slots.1 tag) skip slots.2 src).source.stack.top.state +
        (skip + 1) = src.stack.top.state + (rest.count + 1)
      omega
  | zero =>
    have hslot := hfield tag slots.1 src hslots
    have hkeeps := (field.resumable maxLength tag).keeps slots.1 src
    simp only [Fields.read]
    rcases hr : field.read maxLength tag slots.1 src with ⟨_ | _ | e, slot, src'⟩ <;>
      rw [hr] at hslot hkeeps
    · -- the next field starts where nothing is under way
      let next : Source := { src' with stack := src'.stack.nextField }
      have hnext : next.stack.top.state = src.stack.top.state + 1 := congrArg Nat.succ hkeeps.state
      obtain ⟨hsuspended, hfinished⟩ := hrest (field.tag slot tag) 0 slots.2 next (Nat.zero_le _)
        (rest.readsInOrder_of_atRest _ _ (hslot.finished rfl).nextField_atRest _)
      refine ⟨fun hincomplete => ?_, fun hadvance => ?_⟩
      · obtain ⟨more, hstate, hmore, horder⟩ := hsuspended hincomplete
        refine ⟨more + 1, ?_, ?_, ?_⟩
        · show (rest.read maxLength (field.tag slot tag) 0 slots.2 next).source.stack.top.state = _
          omega
        · simp only [Fields.count]
          omega
        · rw [Nat.zero_add] at horder ⊢
          exact horder
      · obtain ⟨hstate, hrest⟩ := hfinished hadvance
        refine ⟨?_, hrest⟩
        show (rest.read maxLength (field.tag slot tag) 0 slots.2 next).source.stack.top.state + 0 =
          src.stack.top.state + (rest.count + 1)
        omega
    · exact ⟨fun _ => ⟨0, hkeeps.state, Nat.zero_le _, hslot.suspended rfl⟩,
        fun hcontra => by cases hcontra⟩
    · refine ⟨fun hcontra => ?_, fun hcontra => ?_⟩ <;> cases hcontra

/-- What a call on a message leaves unless it fails: a message that is in order where the call was
suspended, and at the end of its fields nothing under way once it is complete. -/
theorem Layout.keepsOrder_message {S : Type} {type : UInt16} {fields : Fields S}
    {settle : S → Except CodecError Unit × S} {maxLength : Nat}
    (hfields : fields.KeepsOrder maxLength) (message : Record S) (src : Source)
    (h : (Layout.message type fields settle).ReadsInOrder src.stack.place message) :
    let r := (Layout.message type fields settle).read maxLength message src
    (r.progress = .incomplete →
      (Layout.message type fields settle).ReadsInOrder r.source.stack.place r.slot) ∧
    (r.progress = .advance →
      r.source.stack.top.state = fields.count ∧ r.source.stack.place.AtRest) := by
  obtain ⟨hcount, hslots⟩ := h
  have hstate := readHeader_state type fields.count src
  have hheader := readHeader_inOrder type fields.count hslots
  simp only [Layout.read]
  rcases hr : readHeader type fields.count src with ⟨_ | _ | e, ⟨⟩, src'⟩ <;>
    rw [hr] at hstate hheader
  · have hstate : src'.stack.top.state = src.stack.top.state := hstate
    replace hcount : src.stack.top.state ≤ fields.count := hcount
    replace hheader : fields.ReadsInOrder (-1) src'.stack.top.state src'.stack.place
      message.slots := by rw [hstate]; exact hheader
    obtain ⟨hsuspended, hfinished⟩ := hfields (-1) src'.stack.top.state message.slots src'
      (by omega) hheader
    simp only [Progress.isAdvance_advance, if_true]
    rcases hr' : fields.read maxLength (-1) src'.stack.top.state message.slots src' with
      ⟨_ | _ | e, slots, src''⟩ <;> rw [hr'] at hsuspended hfinished
    · obtain ⟨hend, hrest⟩ := hfinished rfl
      have hend : src''.stack.top.state = fields.count := by
        replace hend : src''.stack.top.state + src'.stack.top.state =
          src'.stack.top.state + fields.count := hend
        omega
      simp only [Progress.isAdvance_advance, if_true]
      split
      · refine ⟨fun hincomplete => ?_, fun _ => ⟨hend, hrest⟩⟩
        cases hsettle : (settle slots).1 with
        | ok => simp [hsettle, Progress.ofCheck] at hincomplete
        | error e => simp [hsettle, Progress.ofCheck] at hincomplete
      · next hcounted => simp [checkFieldCount, hend] at hcounted
    · refine ⟨fun _ => ?_, fun hcontra => by cases hcontra⟩
      obtain ⟨more, hmore, hle, horder⟩ := hsuspended rfl
      rw [← hmore] at hle horder
      exact ⟨hle, horder⟩
    · refine ⟨fun hcontra => ?_, fun hcontra => ?_⟩ <;> cases hcontra
  · refine ⟨fun _ => ⟨?_, ?_⟩, fun hcontra => by cases hcontra⟩
    · show src'.stack.top.state ≤ fields.count
      rw [hstate]
      exact hcount
    · show fields.ReadsInOrder (-1) src'.stack.top.state src'.stack.place message.slots
      rw [hstate]
      exact hheader
  · refine ⟨fun hcontra => ?_, fun hcontra => ?_⟩ <;> cases hcontra

/-- An array that is handed over as a whole. -/
theorem Reading.InOrder.store {R : Type} {inOrder : Place → R → Prop}
    {r : Reading (Option (List R))} {slot : BatchSlot R} (h : r.InOrder (ItemsInOrder inOrder)) :
    (slot.store r).InOrder fun p slot => ItemsInOrder inOrder p slot.staged := by
  unfold BatchSlot.store
  rcases r with ⟨_ | _ | e, items, src⟩
  · exact .finish rfl (h.finished rfl)
  · exact .suspend rfl (h.suspended rfl)
  · exact .failed rfl

mutual
/-- Reading a message keeps it in order. -/
theorem Layout.keepsOrder : {R : Type} → (layout : Layout R) → (maxLength : Nat) →
    KeepsOrder layout.ReadsInOrder (layout.read maxLength)
  | _, .message _ fields _, maxLength => fun message src h => by
    obtain ⟨hsuspended, hfinished⟩ :=
      Layout.keepsOrder_message (fields.keepsOrder maxLength) message src h
    exact ⟨hsuspended, fun hadvance => (hfinished hadvance).2.deeper⟩
/-- Reading fields keeps them in order. -/
theorem Fields.keepsOrder : {S : Type} → (fields : Fields S) → (maxLength : Nat) →
    fields.KeepsOrder maxLength
  | _, .nil, _ => fun _ skip _ _ hskip h => by
    obtain rfl : skip = 0 := Nat.le_zero.mp hskip
    exact ⟨nofun, fun _ => ⟨rfl, h⟩⟩
  | _, .cons field rest, maxLength =>
    Fields.keepsOrder_cons (field.keepsOrder maxLength) (rest.keepsOrder maxLength)
/-- Reading a field keeps it in order. -/
theorem Field.keepsOrder : {A : Type} → (field : Field A) → (maxLength : Nat) → (tag : Int8) →
    KeepsOrder (field.ReadsInOrder tag) (field.read maxLength tag)
  | _, .flag, _, _ => (.fixed 1 _ : KeepsOrder (fun p _ => p.AtRest) readBool)
  | _, .ordinal name count optional _, _, _ => .ordinal name count optional
  | _, .int32, _, _ => (.fixed 4 _ : KeepsOrder (fun p _ => p.AtRest) readInt32)
  | _, .int64, _, _ => (.fixed 8 _ : KeepsOrder (fun p _ => p.AtRest) readInt64)
  | _, .uint128, _, _ => (.fixed 16 _ : KeepsOrder (fun p _ => p.AtRest) readUInt128)
  | _, .bytes, maxLength, _ => .readBytes maxLength
  | _, .text onNull, maxLength, _ => .readTextField maxLength onNull
  | _, .longs, maxLength, _ => fun slot src h => by
    have hlongs := KeepsOrder.readLongs maxLength (some slot) src h
    refine hlongs.map (fun items : Option (List Int64) => items.getD []) fun p items h => ?_
    refine ⟨h.messageStarted, h.position, h.deeper, h.undeclared, fun hstarted => ?_⟩
    obtain ⟨items', rfl, hle⟩ := h.filled hstarted
    exact ⟨items', rfl, hle⟩
  | _, .optional layout, maxLength, _ =>
    .readMessage (layout.resumable maxLength) (layout.keepsOrder maxLength)
      layout.readsInOrder_of_atMessage
  | _, .required name layout, maxLength, _ =>
    .readRequired (layout.resumable maxLength) (layout.keepsOrder maxLength)
      layout.readsInOrder_of_atMessage layout.blank name
  | _, .array layout, maxLength, _ =>
    .readMessages (layout.resumable maxLength) (layout.keepsOrder maxLength)
      layout.readsInOrder_of_atMessage maxLength
  | _, .batch layout, maxLength, _ => fun slot src h =>
    (KeepsOrder.readMessages (layout.resumable maxLength) (layout.keepsOrder maxLength)
      layout.readsInOrder_of_atMessage maxLength slot.staged src h).store
  | _, .keys layout, maxLength, _ => fun slot src h =>
    (KeepsOrder.readMessages (layout.resumable maxLength) (layout.keepsOrder maxLength)
      layout.readsInOrder_of_atMessage maxLength slot.inbound src h).map
        (fun items : Option (List _) => ({ slot with inbound := items } : KeysSlot _))
        fun _ _ h => h
  | _, .values selector value invocation, maxLength, tag => fun slot src h => by
    by_cases htag : tag = selector
    · simp only [Field.ReadsInOrder, Field.read, if_pos htag] at h ⊢
      exact (KeepsOrder.readMessages (invocation.resumable maxLength)
        (invocation.keepsOrder maxLength) invocation.readsInOrder_of_atMessage maxLength
        slot.inboundInvocations src h).map _ fun _ _ h => h
    · simp only [Field.ReadsInOrder, Field.read, if_neg htag] at h ⊢
      exact (KeepsOrder.readMessages (value.resumable maxLength) (value.keepsOrder maxLength)
        value.readsInOrder_of_atMessage maxLength slot.inboundValues src h).map _
          fun _ _ h => h
end

/-- A message that is complete is behind its fields. -/
theorem Layout.read_state_of_advance {R : Type} (layout : Layout R) {maxLength : Nat}
    {message : R} {src : Source} (h : layout.ReadsInOrder src.stack.place message)
    (hadvance : (layout.read maxLength message src).progress = .advance) :
    (layout.read maxLength message src).source.stack.top.state = layout.fieldCount := by
  cases layout with
  | message type fields settle =>
    exact ((Layout.keepsOrder_message (fields.keepsOrder maxLength) message src h).2 hadvance).1

end Enlistment.Wire
