import Enlistment.Proofs.Wire.Emission
import Enlistment.Proofs.Wire.MessageResumption
import Enlistment.Proofs.Wire.Spelling

/-!
# Records under a limit

A record that is being read is under a limit if no length in it is beyond the limit, also in
what is staged and in what came in before a failure. This alone is not kept by reading: octets
are added to a slot up to a length that is in a frame. So a record is capped at a place, which is
the frame of its depth with those below it. Where a length is known there, the slot at the place
holds no more than that.
-/

namespace Enlistment.Wire

/-! ## Places -/

/-- Where a call goes on in a message: the frame of its depth and those below. -/
structure Place where
  top : Frame
  deeper : List Frame

/-- Where a call with the given frames goes on. -/
def FrameStack.place (s : FrameStack) : Place := ⟨s.top, s.deeper⟩

/-- Where the nested message of a place is gone on with. -/
def Place.nested (p : Place) : Place := ⟨p.deeper.headD {}, p.deeper.tail⟩

/-- Where the nested message of a place is gone on with, if one has been announced. What is
complete has no place. -/
def nestedPlace (place : Option Place) : Option Place :=
  place.bind fun p => if p.top.messageStarted then some p.nested else none

/-- The length that the field at a place declares, once it is known. -/
def declaredLength (place : Option Place) : Option Nat :=
  place.bind fun p => if p.top.fieldStarted then some p.top.length else none

/-- The number of elements that the field at a place has announced, once its length is known. -/
def announcedCount (place : Option Place) : Option Nat :=
  place.bind fun p =>
    if p.top.fieldStarted then some (p.top.position + p.top.messageStarted.toNat) else none

/-- Outside a message there is no place. -/
@[simp] theorem nestedPlace_none : nestedPlace none = none := rfl

/-- An announced message goes on one level down. -/
theorem nestedPlace_started {s : FrameStack} (h : s.top.messageStarted = true) :
    nestedPlace (some s.place) = some s.enter.place := by
  simp [nestedPlace, Place.nested, FrameStack.place, FrameStack.enter, h]

/-- No message goes on where none has been announced. -/
theorem nestedPlace_not_started {p : Place} (h : p.top.messageStarted = false) :
    nestedPlace (some p) = none := by
  simp [nestedPlace, h]

/-- The length of a field that has been started is the one in the frame. -/
theorem declaredLength_started {s : FrameStack} (h : s.top.fieldStarted = true) :
    declaredLength (some s.place) = some s.top.length := by
  simp [declaredLength, FrameStack.place, h]

/-- A field that has been started counts the elements in the frame. -/
theorem announcedCount_started {s : FrameStack} (h : s.top.fieldStarted = true) :
    announcedCount (some s.place) = some (s.top.position + s.top.messageStarted.toNat) := by
  simp [announcedCount, FrameStack.place, h]

/-- No length is known of a field that has not been started. -/
theorem declaredLength_not_started {p : Place} (h : p.top.fieldStarted = false) :
    declaredLength (some p) = none := by
  simp [declaredLength, h]

/-- Nothing is announced by a field that has not been started. -/
theorem announcedCount_not_started {p : Place} (h : p.top.fieldStarted = false) :
    announcedCount (some p) = none := by
  simp [announcedCount, h]

/-- Whether the lengths that the frames of all depths keep are at most `limit`. -/
structure FrameStack.Capped (limit : Nat) (s : FrameStack) : Prop where
  outer : ∀ f ∈ s.outer, f.length ≤ limit
  top : s.top.length ≤ limit
  deeper : ∀ f ∈ s.deeper, f.length ≤ limit

namespace FrameStack.Capped

variable {limit : Nat} {s : FrameStack}

/-- Fresh frames keep no length. -/
theorem empty : Capped limit {} :=
  ⟨fun _ hf => absurd hf List.not_mem_nil, Nat.zero_le _, fun _ hf => absurd hf List.not_mem_nil⟩

/-- Another frame at the current depth. -/
theorem modifyTop (h : s.Capped limit) {f : Frame → Frame} (hf : (f s.top).length ≤ limit) :
    (s.modifyTop f).Capped limit := ⟨h.outer, hf, h.deeper⟩

/-- Going on to the next field forgets the length of this one. -/
theorem nextField (h : s.Capped limit) : s.nextField.Capped limit := h.modifyTop (Nat.zero_le _)

/-- Going down into a nested message. -/
theorem enter (h : s.Capped limit) : s.enter.Capped limit := by
  refine ⟨List.forall_mem_cons.mpr ⟨h.top, h.outer⟩, ?_,
    fun f hf => h.deeper f (List.mem_of_mem_tail hf)⟩
  show (s.deeper.headD {}).length ≤ limit
  cases hdeeper : s.deeper with
  | nil => exact Nat.zero_le _
  | cons f rest => exact h.deeper f (hdeeper ▸ List.mem_cons_self)

/-- Coming back from a nested message. -/
theorem leave (h : s.Capped limit) (finished : Bool) : (s.leave finished).Capped limit := by
  unfold FrameStack.leave
  split
  · exact h
  · next f rest houter =>
    have houter := houter ▸ h.outer
    refine ⟨fun g hg => houter g (List.mem_cons_of_mem _ hg), houter f List.mem_cons_self,
      List.forall_mem_cons.mpr ⟨?_, h.deeper⟩⟩
    cases finished with
    | true => exact Nat.zero_le _
    | false => exact h.top

end FrameStack.Capped

/-! ## Contents of slots -/

/-- There is nothing in an empty slot. -/
theorem forall_of_none {A : Type} {p : A → Prop} : ∀ a, none = some a → p a := by
  intro a h
  cases h

/-- Whether octets at a place keep to the limit, and to their declared length once it is known. -/
def CappedOctets (limit : Nat) (place : Option Place) (bs : Bytes) : Prop :=
  bs.length ≤ limit ∧ ∀ n, declaredLength place = some n → bs.length ≤ n

/-- Whether a text at a place keeps to the limit: what is staged, and the text that has come. -/
def TextSlot.Capped (limit : Nat) (place : Option Place) (slot : TextSlot) : Prop :=
  (∀ bs, slot.staged = some bs → CappedOctets limit place bs) ∧
    ∀ s, slot.text = some s → (Bytes.ofText s).length ≤ limit

/-- Whether a message at a place is capped one level down, if it is there. -/
def CappedMessage {R : Type} (capped : Option Place → R → Prop) (place : Option Place)
    (slot : Option R) : Prop :=
  ∀ message, slot = some message → capped (nestedPlace place) message

/-- Whether an array at a place keeps to the limit, as its elements do. All elements but the
last one are complete. Once its length is known the array has no more elements than that, nor
more than have been counted and announced. -/
structure CappedItems {R : Type} (limit : Nat) (capped : Option Place → R → Prop)
    (place : Option Place) (items : List R) : Prop where
  length_le : items.length ≤ limit
  declared : ∀ n, declaredLength place = some n → items.length ≤ n
  counted : ∀ n, announcedCount place = some n → items.length ≤ n
  finished : ∀ item ∈ items.dropLast, capped none item
  last : ∀ item, items.getLast? = some item → capped (nestedPlace place) item

mutual
/-- Whether the lengths in a message that is read up to a place are at most `limit`. -/
def Layout.Capped (limit : Nat) : {R : Type} → Layout R → Option Place → R → Prop
  | _, .message _ fields _, place, message =>
    fields.Capped limit (-1) (place.elim 0 fun p => p.top.state) place message.slots
/-- Whether the lengths in fields are at most `limit`, with the first `skip` fields complete
and the place in the one behind them. `tag` is the last ordinal before the fields. -/
def Fields.Capped (limit : Nat) : {S : Type} → Fields S → (tag : Int8) → (skip : Nat) →
    Option Place → S → Prop
  | _, .nil, _, _, _, _ => True
  | _, .cons field rest, tag, skip + 1, place, slots =>
    field.Capped limit tag none slots.1 ∧
      rest.Capped limit (field.tag slots.1 tag) skip place slots.2
  | _, .cons field rest, tag, 0, place, slots =>
    field.Capped limit tag place slots.1 ∧ rest.Capped limit (field.tag slots.1 tag) 0 none slots.2
/-- Whether the lengths in a field are at most `limit`. -/
def Field.Capped (limit : Nat) : {A : Type} → Field A → (tag : Int8) → Option Place → A → Prop
  | _, .flag, _, _, _ => True
  | _, .ordinal _ _ _ _, _, _, _ => True
  | _, .int32, _, _, _ => True
  | _, .int64, _, _, _ => True
  | _, .uint128, _, _, _ => True
  | _, .bytes, _, place, slot => ∀ bs, slot = some bs → CappedOctets limit place bs
  | _, .text _, _, place, slot => slot.Capped limit place
  | _, .longs, _, _, slot => slot.length ≤ limit
  | _, .optional layout, _, place, slot => CappedMessage (layout.Capped limit) place slot
  | _, .required _ layout, _, place, slot => layout.Capped limit (nestedPlace place) slot
  | _, .array layout, _, place, slot =>
    ∀ items, slot = some items → CappedItems limit (layout.Capped limit) place items
  | _, .batch layout, _, place, slot =>
    (∀ items, slot.staged = some items → CappedItems limit (layout.Capped limit) place items) ∧
      CappedItems limit (layout.Capped limit) none slot.settled
  | _, .keys layout, _, place, slot =>
    (∀ items, slot.inbound = some items → CappedItems limit (layout.Capped limit) place items) ∧
      ∀ items, slot.settled = some items → CappedItems limit (layout.Capped limit) none items
  | _, .values selector value invocation, tag, place, slot =>
    (∀ items, slot.inboundValues = some items →
      CappedItems limit (value.Capped limit) (if tag = selector then none else place) items) ∧
    (∀ items, slot.inboundInvocations = some items →
      CappedItems limit (invocation.Capped limit) (if tag = selector then place else none)
        items) ∧
    (∀ items, slot.settled = some (.inl items) →
      CappedItems limit (value.Capped limit) none items) ∧
    ∀ items, slot.settled = some (.inr items) →
      CappedItems limit (invocation.Capped limit) none items
end

/-! ## From place to place -/

/-- Octets that are capped at a place are so when they are complete. -/
theorem CappedOctets.complete {limit : Nat} {place : Option Place} {bs : Bytes}
    (h : CappedOctets limit place bs) : CappedOctets limit none bs :=
  ⟨h.1, forall_of_none⟩

/-- Complete octets may stand before a field whose length is not known. -/
theorem CappedOctets.fresh {limit : Nat} {p : Place} {bs : Bytes}
    (h : CappedOctets limit none bs) (hp : p.top.fieldStarted = false) :
    CappedOctets limit (some p) bs := by
  refine ⟨h.1, ?_⟩
  rw [declaredLength_not_started hp]
  exact h.2

namespace CappedItems

variable {R : Type} {limit : Nat} {capped capped' : Option Place → R → Prop}
  {place : Option Place} {p : Place} {items : List R}

/-- An array without elements is under every limit. -/
theorem nil : CappedItems limit capped place [] :=
  ⟨Nat.zero_le _, fun _ _ => Nat.zero_le _, fun _ _ => Nat.zero_le _,
    fun _ h => absurd h List.not_mem_nil, forall_of_none⟩

/-- A complete array with one more element behind complete ones. -/
theorem concat {item : R} (hlength : items.length + 1 ≤ limit)
    (hitems : ∀ item ∈ items, capped none item) (hitem : capped none item) :
    CappedItems limit capped none (items ++ [item]) := by
  refine ⟨by rwa [List.length_append], forall_of_none, forall_of_none,
    by rwa [List.dropLast_concat], fun last hlast => ?_⟩
  rw [List.getLast?_concat] at hlast
  rwa [← Option.some.inj hlast]

/-- An array at frames that count one more element, behind complete ones. -/
theorem concat_at {s : FrameStack} {item : R} (hs : s.Capped limit)
    (hfield : s.top.fieldStarted = true) (hdeclared : items.length + 1 ≤ s.top.length)
    (hcounted : items.length + 1 ≤ s.top.position + s.top.messageStarted.toNat)
    (hitems : ∀ item ∈ items, capped none item)
    (hitem : capped (nestedPlace (some s.place)) item) :
    CappedItems limit capped (some s.place) (items ++ [item]) := by
  refine ⟨?_, fun n hn => ?_, fun n hn => ?_, by rwa [List.dropLast_concat], fun last hlast => ?_⟩
  · rw [List.length_append]
    exact Nat.le_trans hdeclared hs.top
  · rw [declaredLength_started hfield] at hn
    rwa [← Option.some.inj hn, List.length_append]
  · rw [announcedCount_started hfield] at hn
    rwa [← Option.some.inj hn, List.length_append]
  · rw [List.getLast?_concat] at hlast
    rwa [← Option.some.inj hlast]

/-- All elements of a complete array are complete. -/
theorem mem (h : CappedItems limit capped none items) : ∀ item ∈ items, capped none item := by
  intro item hitem
  rcases List.eq_nil_or_concat items with rfl | ⟨front, back, rfl⟩
  · cases hitem
  · rw [List.concat_eq_append] at h hitem
    rcases List.mem_append.mp hitem with hfront | hback
    · exact h.finished item (by rwa [List.dropLast_concat])
    · obtain rfl := List.mem_singleton.mp hback
      exact h.last item List.getLast?_concat

/-- An array that is capped at a place is so when it is complete, if its elements are. -/
theorem complete (h : CappedItems limit capped place items)
    (hcapped : ∀ place item, capped place item → capped none item) :
    CappedItems limit capped none items :=
  ⟨h.length_le, forall_of_none, forall_of_none, h.finished,
    fun item hitem => hcapped _ item (h.last item hitem)⟩

/-- A complete array may stand before a field that has not been started. -/
theorem fresh (h : CappedItems limit capped none items) (hfield : p.top.fieldStarted = false)
    (hmessage : p.top.messageStarted = false) : CappedItems limit capped (some p) items := by
  refine ⟨h.length_le, ?_, ?_, h.finished, ?_⟩
  · rw [declaredLength_not_started hfield]
    exact h.declared
  · rw [announcedCount_not_started hfield]
    exact h.counted
  · rw [nestedPlace_not_started hmessage]
    exact h.last

end CappedItems

/-- What is complete does not depend on the ordinals before it. -/
theorem Field.capped_tag {A : Type} {limit : Nat} (field : Field A) {tag : Int8} (tag' : Int8)
    {slot : A} (h : field.Capped limit tag none slot) : field.Capped limit tag' none slot := by
  cases field with
  | values selector value invocation =>
    simp only [Field.Capped, ite_self] at h ⊢
    exact h
  | _ => exact h

/-- Fields that are complete do not depend on the ordinals before them, nor on how many of them
are skipped. -/
theorem Fields.capped_tag {limit : Nat} : {S : Type} → (fields : Fields S) → {tag : Int8} →
    (tag' : Int8) → {skip : Nat} → (skip' : Nat) → {slots : S} →
    fields.Capped limit tag skip none slots → fields.Capped limit tag' skip' none slots
  | _, .nil, _, _, _, _, _, _ => trivial
  | _, .cons field rest, _, tag', 0, 0, _, h =>
    ⟨field.capped_tag tag' h.1, rest.capped_tag _ 0 h.2⟩
  | _, .cons field rest, _, tag', 0, skip' + 1, _, h =>
    ⟨field.capped_tag tag' h.1, rest.capped_tag _ skip' h.2⟩
  | _, .cons field rest, _, tag', _ + 1, 0, _, h =>
    ⟨field.capped_tag tag' h.1, rest.capped_tag _ 0 h.2⟩
  | _, .cons field rest, _, tag', _ + 1, skip' + 1, _, h =>
    ⟨field.capped_tag tag' h.1, rest.capped_tag _ skip' h.2⟩

/-- A complete field may stand before one that has not been started. -/
theorem Field.capped_fresh {A : Type} {limit : Nat} (field : Field A) {tag : Int8} {p : Place}
    {slot : A} (hfield : p.top.fieldStarted = false) (hmessage : p.top.messageStarted = false)
    (h : field.Capped limit tag none slot) : field.Capped limit tag (some p) slot := by
  cases field with
  | bytes => exact fun bs hbs => (h bs hbs).fresh hfield
  | text => exact ⟨fun bs hbs => (h.1 bs hbs).fresh hfield, h.2⟩
  | optional layout =>
    simpa only [Field.Capped, CappedMessage, nestedPlace_none, nestedPlace_not_started hmessage]
      using h
  | required name layout =>
    simpa only [Field.Capped, nestedPlace_none, nestedPlace_not_started hmessage] using h
  | array layout => exact fun items hitems => (h items hitems).fresh hfield hmessage
  | batch layout => exact ⟨fun items hitems => (h.1 items hitems).fresh hfield hmessage, h.2⟩
  | keys layout => exact ⟨fun items hitems => (h.1 items hitems).fresh hfield hmessage, h.2⟩
  | values selector value invocation =>
    simp only [Field.Capped, ite_self] at h ⊢
    refine ⟨fun items hitems => ?_, fun items hitems => ?_, h.2.2⟩
    · split
      · exact h.1 items hitems
      · exact (h.1 items hitems).fresh hfield hmessage
    · split
      · exact (h.2.1 items hitems).fresh hfield hmessage
      · exact h.2.1 items hitems
  | _ => exact h

/-- Complete fields may stand before a field that has not been started. -/
theorem Fields.capped_fresh {limit : Nat} {p : Place} (hfield : p.top.fieldStarted = false)
    (hmessage : p.top.messageStarted = false) : {S : Type} → (fields : Fields S) →
    {tag : Int8} → {skip : Nat} → {slots : S} → fields.Capped limit tag skip none slots →
    fields.Capped limit tag skip (some p) slots
  | _, .nil, _, _, _, _ => trivial
  | _, .cons field _, _, 0, _, h => ⟨field.capped_fresh hfield hmessage h.1, h.2⟩
  | _, .cons _ rest, _, _ + 1, _, h => ⟨h.1, rest.capped_fresh hfield hmessage h.2⟩

/-- Behind all fields there is no field at the place. -/
theorem Fields.capped_all {limit : Nat} {place : Option Place} : {S : Type} →
    (fields : Fields S) → {tag : Int8} → {skip : Nat} → {slots : S} → fields.count ≤ skip →
    fields.Capped limit tag skip none slots → fields.Capped limit tag skip place slots
  | _, .nil, _, _, _, _, _ => trivial
  | _, .cons _ _, _, 0, _, hcount, _ => absurd hcount (Nat.not_succ_le_zero _)
  | _, .cons _ rest, _, _ + 1, _, hcount, h =>
    ⟨h.1, rest.capped_all (Nat.le_of_succ_le_succ hcount) h.2⟩

mutual
/-- A message that is capped at a place is so when it is complete. -/
theorem Layout.Capped.complete {limit : Nat} : {R : Type} → {layout : Layout R} →
    (place : Option Place) → (message : R) → layout.Capped limit place message →
    layout.Capped limit none message
  | _, .message _ fields _, _, message, h =>
    fields.capped_tag _ 0 (Fields.Capped.complete message.slots h)
/-- Fields that are capped at a place are so when they are complete. -/
theorem Fields.Capped.complete {limit : Nat} : {S : Type} → {fields : Fields S} → {tag : Int8} →
    {skip : Nat} → {place : Option Place} → (slots : S) →
    fields.Capped limit tag skip place slots → fields.Capped limit tag skip none slots
  | _, .nil, _, _, _, _, _ => trivial
  | _, .cons _ _, _, 0, _, slots, h => ⟨Field.Capped.complete slots.1 h.1, h.2⟩
  | _, .cons _ _, _, _ + 1, _, slots, h => ⟨h.1, Fields.Capped.complete slots.2 h.2⟩
/-- A field that is capped at a place is so when it is complete. -/
theorem Field.Capped.complete {limit : Nat} : {A : Type} → {field : Field A} → {tag : Int8} →
    {place : Option Place} → (slot : A) → field.Capped limit tag place slot →
    field.Capped limit tag none slot
  | _, .flag, _, _, _, _ => trivial
  | _, .ordinal _ _ _ _, _, _, _, _ => trivial
  | _, .int32, _, _, _, _ => trivial
  | _, .int64, _, _, _, _ => trivial
  | _, .uint128, _, _, _, _ => trivial
  | _, .bytes, _, _, _, h => fun bs hbs => (h bs hbs).complete
  | _, .text _, _, _, _, h => ⟨fun bs hbs => (h.1 bs hbs).complete, h.2⟩
  | _, .longs, _, _, _, h => h
  | _, .optional _, _, _, _, h => fun message hmessage =>
    Layout.Capped.complete _ message (h message hmessage)
  | _, .required _ _, _, _, slot, h => Layout.Capped.complete _ slot h
  | _, .array _, _, _, _, h => fun items hitems =>
    (h items hitems).complete Layout.Capped.complete
  | _, .batch _, _, _, _, h =>
    ⟨fun items hitems => (h.1 items hitems).complete Layout.Capped.complete, h.2⟩
  | _, .keys _, _, _, _, h =>
    ⟨fun items hitems => (h.1 items hitems).complete Layout.Capped.complete, h.2⟩
  | _, .values _ _ _, _, _, _, h => by
    simp only [Field.Capped, ite_self] at h ⊢
    exact ⟨fun items hitems => (h.1 items hitems).complete Layout.Capped.complete,
      fun items hitems => (h.2.1 items hitems).complete Layout.Capped.complete, h.2.2⟩
end

mutual
/-- A message that has not been read is under every limit, wherever it is gone on with. -/
theorem Layout.capped_blank {limit : Nat} : {R : Type} → (layout : Layout R) →
    (place : Option Place) → layout.Capped limit place layout.blank
  | _, .message _ fields _, place => fields.capped_blank _ _ place
/-- Fields that have not been read are under every limit. -/
theorem Fields.capped_blank {limit : Nat} : {S : Type} → (fields : Fields S) → (tag : Int8) →
    (skip : Nat) → (place : Option Place) → fields.Capped limit tag skip place fields.blank
  | _, .nil, _, _, _ => trivial
  | _, .cons field rest, tag, 0, place =>
    ⟨field.capped_blank tag place, rest.capped_blank _ 0 none⟩
  | _, .cons field rest, tag, skip + 1, place =>
    ⟨field.capped_blank tag none, rest.capped_blank _ skip place⟩
/-- A field that has not been read is under every limit. -/
theorem Field.capped_blank {limit : Nat} : {A : Type} → (field : Field A) → (tag : Int8) →
    (place : Option Place) → field.Capped limit tag place field.blank
  | _, .flag, _, _ => trivial
  | _, .ordinal _ _ _ _, _, _ => trivial
  | _, .int32, _, _ => trivial
  | _, .int64, _, _ => trivial
  | _, .uint128, _, _ => trivial
  | _, .bytes, _, _ => forall_of_none
  | _, .text onNull, _, _ => by
    cases onNull with
    | keep => exact ⟨forall_of_none, forall_of_none⟩
    | _ =>
      refine ⟨forall_of_none, fun s hs => ?_⟩
      obtain rfl : "" = s := Option.some.inj hs
      exact Nat.zero_le _
  | _, .longs, _, _ => Nat.zero_le _
  | _, .optional _, _, _ => forall_of_none
  | _, .required _ layout, _, place => layout.capped_blank (nestedPlace place)
  | _, .array _, _, _ => forall_of_none
  | _, .batch _, _, _ => ⟨forall_of_none, .nil⟩
  | _, .keys _, _, _ => ⟨forall_of_none, forall_of_none⟩
  | _, .values _ _ _, _, _ => by
    refine ⟨forall_of_none, forall_of_none, fun _ h => ?_, fun _ h => ?_⟩
    · cases h
    · cases h
end

/-- The elements of a complete array are within a limit if the messages are that are capped. -/
theorem CappedItems.within {R : Type} {limit : Nat} {layout : Layout R} {items : List R}
    (h : CappedItems limit (layout.Capped limit) none items)
    (hlayout : ∀ message, layout.Capped limit none message → layout.Within limit message) :
    items.length ≤ limit ∧ ∀ item ∈ items, layout.Within limit item :=
  ⟨h.length_le, fun item hitem => hlayout item (h.mem item hitem)⟩

mutual
/-- The lengths in a complete message are within the limit. -/
theorem Layout.Capped.within {limit : Nat} : {R : Type} → {layout : Layout R} → (message : R) →
    layout.Capped limit none message → layout.Within limit message
  | _, .message _ _ _, message, h => Fields.Capped.within message.slots h
/-- The lengths in complete fields are within the limit. -/
theorem Fields.Capped.within {limit : Nat} : {S : Type} → {fields : Fields S} → {tag : Int8} →
    (slots : S) → fields.Capped limit tag 0 none slots → fields.Within limit slots
  | _, .nil, _, _, _ => trivial
  | _, .cons _ _, _, slots, h => ⟨Field.Capped.within slots.1 h.1, Fields.Capped.within slots.2 h.2⟩
/-- The lengths in a complete field are within the limit. -/
theorem Field.Capped.within {limit : Nat} : {A : Type} → {field : Field A} → {tag : Int8} →
    (slot : A) → field.Capped limit tag none slot → field.Within limit slot
  | _, .flag, _, _, _ => trivial
  | _, .ordinal _ _ _ _, _, _, _ => trivial
  | _, .int32, _, _, _ => trivial
  | _, .int64, _, _, _ => trivial
  | _, .uint128, _, _, _ => trivial
  | _, .bytes, _, _, h => fun bs hbs => (h bs hbs).1
  | _, .text _, _, _, h => h.2
  | _, .longs, _, _, h => h
  | _, .optional _, _, _, h => fun message hmessage =>
    Layout.Capped.within message (h message hmessage)
  | _, .required _ _, _, slot, h => Layout.Capped.within slot h
  | _, .array _, _, _, h => fun items hitems => (h items hitems).within Layout.Capped.within
  | _, .batch _, _, _, h => h.2.within Layout.Capped.within
  | _, .keys _, _, _, h => fun items hitems => (h.2 items hitems).within Layout.Capped.within
  | _, .values _ _ _, _, _, h =>
    ⟨fun items hitems => (h.2.2.1 items hitems).within Layout.Capped.within,
      fun items hitems => (h.2.2.2 items hitems).within Layout.Capped.within⟩
end

end Enlistment.Wire
