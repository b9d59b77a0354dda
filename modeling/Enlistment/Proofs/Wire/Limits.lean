import Enlistment.Wire.Read

/-!
# Reading under a limit

A reader under a limit of its own fails where a length is beyond it, and does otherwise what a
reader without a limit of its own does. So what it reads is what was written, whatever its
limit is.
-/

namespace Enlistment.Wire

/-- A call that failed. -/
def Reading.Failed {A : Type} (r : Reading A) : Prop := ∃ e, r.progress = .failed e

/-- A call that failed or came to the same as another one. -/
def Reading.Narrows {A : Type} (a b : Reading A) : Prop := a.Failed ∨ a = b

/-- A reader that fails or does the same as another one. -/
def Narrows {A : Type} (read read' : A → Source → Reading A) : Prop :=
  ∀ slot src, (read slot src).Narrows (read' slot src)

/-- A call that failed is not complete. -/
theorem Reading.Failed.not_advance {A : Type} {r : Reading A} (h : r.Failed) :
    r.progress.isAdvance = false := by
  obtain ⟨e, he⟩ := h
  rw [he]
  rfl

namespace Reading.Narrows

variable {A B : Type} {a b : Reading A}

/-- Every call came to the same as itself. -/
theorem refl (a : Reading A) : a.Narrows a := .inr rfl

/-- What is made of a call, if a failure stays one. -/
theorem through (h : a.Narrows b) (f : Reading A → Reading B)
    (hf : ∀ r : Reading A, r.Failed → (f r).Failed) : (f a).Narrows (f b) := by
  rcases h with hfailed | rfl
  · exact .inl (hf a hfailed)
  · exact .refl _

/-- A call that hands its slot over to a larger one. -/
theorem map (h : a.Narrows b) (f : A → B) : (a.map f).Narrows (b.map f) :=
  h.through (Reading.map f) fun _ hr => hr

/-- A call that is followed by another one if it is complete. -/
theorem andThen (h : a.Narrows b) {f g : Reading A → Reading B} {stop : Reading A → Reading B}
    (hnext : ∀ r, (f r).Narrows (g r)) (hstop : ∀ r : Reading A, r.Failed → (stop r).Failed) :
    (if a.progress.isAdvance then f a else stop a).Narrows
      (if b.progress.isAdvance then g b else stop b) := by
  rcases h with hfailed | rfl
  · rw [hfailed.not_advance]
    exact .inl (hstop a hfailed)
  · split
    · exact hnext a
    · exact .refl _

end Reading.Narrows

/-! ## Units -/

/-- A length is beyond the limit or taken for what it is. -/
theorem decodeLength_narrows (maxLength : Nat) (raw : Int32) :
    (∃ e, decodeLength maxLength raw = .error e) ∨
      decodeLength maxLength raw = decodeLength maxWireLength raw := by
  have hhigh : raw.toInt.toNat ≤ maxWireLength := by
    have hlt := raw.toInt_lt
    simp only [maxWireLength]
    omega
  unfold decodeLength
  by_cases habsent : raw = -1
  · simp only [if_pos habsent]
    exact .inr trivial
  · by_cases hnegative : raw < 0
    · simp only [if_neg habsent, if_pos hnegative]
      exact .inl ⟨_, rfl⟩
    · by_cases hbeyond : maxLength < raw.toInt.toNat
      · simp only [if_neg habsent, if_neg hnegative, if_pos hbeyond]
        exact .inl ⟨_, rfl⟩
      · simp only [if_neg habsent, if_neg hnegative, if_neg hbeyond, if_neg (Nat.not_lt.mpr hhigh)]
        exact .inr trivial

/-- A unit behind its length. -/
theorem Narrows.readSized {A : Type} {fill fill' : Nat → A → Source → Reading A}
    (h : ∀ length, Narrows (fill length) (fill' length)) (maxLength : Nat) (what : String)
    (empty : A) : Narrows (readSized maxLength what empty fill)
      (Wire.readSized maxWireLength what empty fill') := by
  have hresume : ∀ slot src, (resumeSized what fill slot src).Narrows
      (resumeSized what fill' slot src) := by
    intro slot src
    cases slot with
    | none => exact .refl _
    | some a => exact (h src.stack.top.length a src).map some
  intro slot src
  unfold Wire.readSized
  by_cases hstarted : src.stack.top.fieldStarted = true
  · simp only [if_pos hstarted]
    exact hresume slot src
  · by_cases hshort : src.input.length < 4
    · simp only [if_neg hstarted, if_pos hshort]
      exact .refl _
    · simp only [if_neg hstarted, if_neg hshort]
      rcases decodeLength_narrows maxLength (int32Of (src.input.take 4)) with ⟨e, he⟩ | hsame
      · rw [he]
        exact .inl ⟨e, rfl⟩
      · rw [hsame]
        rcases decodeLength maxWireLength (int32Of (src.input.take 4)) with e | _ | length
        · exact .refl _
        · exact .refl _
        · exact hresume _ _

/-- A byte string. -/
theorem Narrows.readBytes (maxLength : Nat) :
    Narrows (readBytes maxLength) (Wire.readBytes maxWireLength) :=
  .readSized (fun _ _ _ => .refl _) maxLength _ _

/-- A text. -/
theorem Narrows.readText (maxLength : Nat) :
    Narrows (readText maxLength) (Wire.readText maxWireLength) := by
  intro slot src
  unfold Wire.readText
  rcases Narrows.readBytes maxLength slot.staged src with ⟨e, he⟩ | hsame
  · rcases hr : Wire.readBytes maxLength slot.staged src with ⟨progress, staged, src'⟩
    rw [hr] at he
    obtain rfl : progress = .failed e := he
    exact .inl ⟨e, rfl⟩
  · rw [hsame]
    exact .refl _

/-- A text field. -/
theorem Narrows.readTextField (maxLength : Nat) (onNull : NullText) :
    Narrows (readTextField maxLength onNull) (Wire.readTextField maxWireLength onNull) := by
  intro slot src
  unfold Wire.readTextField
  rcases Narrows.readText maxLength ⟨slot.staged, none⟩ src with ⟨e, he⟩ | hsame
  · rcases hr : Wire.readText maxLength ⟨slot.staged, none⟩ src with ⟨progress, text, src'⟩
    rw [hr] at he
    obtain rfl : progress = .failed e := he
    exact .inl ⟨e, rfl⟩
  · rw [hsame]
    exact .refl _

/-! ## Nested messages -/

section

variable {R : Type} {read read' : R → Source → Reading R} (h : Narrows read read')
include h

/-- A message one level down. -/
theorem Narrows.readNested : Narrows (readNested read) (Wire.readNested read') := by
  intro message src
  exact (h message { src with stack := src.stack.enter }).through
    (fun r => { r with source := { r.source with stack := r.source.stack.leave r.progress.isAdvance } })
    fun _ hr => hr

/-- A message that has been announced. -/
theorem Narrows.resumeMessage : Narrows (resumeMessage read) (Wire.resumeMessage read') := by
  intro slot src
  cases slot with
  | none => exact .refl _
  | some message =>
    exact (Narrows.readNested h message src).through
      (fun r => ⟨r.progress, some r.slot,
        if r.progress.isAdvance then
          r.source.modifyTop fun f => { f with messageStarted := false }
        else r.source⟩)
      fun _ hr => hr

/-- A message that may be absent. -/
theorem Narrows.readMessage (create : UInt16 → Option R) :
    Narrows (readMessage create read) (Wire.readMessage create read') := by
  intro slot src
  unfold Wire.readMessage
  split
  · exact Narrows.resumeMessage h slot src
  · split
    · exact .refl _
    · dsimp only
      split
      · exact .refl _
      · split
        · exact .refl _
        · exact Narrows.resumeMessage h _ _

/-- A message that must be there. -/
theorem Narrows.readRequired (create : UInt16 → Option R) (blank : R) (field : String) :
    Narrows (readRequired create blank read field) (Wire.readRequired create blank read' field) := by
  intro slot src
  unfold Wire.readRequired
  rcases Narrows.readMessage h create (some slot) src with ⟨e, he⟩ | hsame
  · rcases hr : Wire.readMessage create read (some slot) src with ⟨progress, message, src'⟩
    rw [hr] at he
    obtain rfl : progress = .failed e := he
    exact .inl ⟨e, rfl⟩
  · rw [hsame]
    exact .refl _

/-- The last element of an array. -/
theorem Narrows.resumeElement : Narrows (resumeElement read) (Wire.resumeElement read') := by
  intro items src
  unfold Wire.resumeElement
  cases items.getLast? with
  | none => exact .refl _
  | some item =>
    exact (Narrows.readNested h item src).through
      (fun r => ⟨r.progress, items.dropLast ++ [r.slot],
        if r.progress.isAdvance then
          r.source.modifyTop fun f => { f with messageStarted := false, position := f.position + 1 }
        else r.source⟩)
      fun _ hr => hr

/-- One more element of an array. -/
theorem Narrows.readElement (create : UInt16 → Option R) :
    Narrows (readElement create read) (Wire.readElement create read') := by
  intro items src
  unfold Wire.readElement
  split
  · exact Narrows.resumeElement h items src
  · split
    · exact .refl _
    · dsimp only
      split
      · exact .refl _
      · split
        · exact .refl _
        · exact Narrows.resumeElement h _ _

/-- More elements of an array. -/
theorem Narrows.readElements (create : UInt16 → Option R) (count : Nat) :
    Narrows (readElements create read count) (Wire.readElements create read' count) := by
  induction count with
  | zero => exact fun _ _ => .refl _
  | succ count ih =>
    intro items src
    exact (Narrows.readElement h create items src).andThen (fun r => ih r.slot r.source)
      fun _ hr => hr

/-- An array of messages. -/
theorem Narrows.readMessages (create : UInt16 → Option R) (maxLength : Nat) :
    Narrows (readMessages maxLength create read)
      (Wire.readMessages maxWireLength create read') :=
  .readSized (fun _ items src => Narrows.readElements h create _ items src) maxLength _ _

end

/-! ## Messages -/

/-- Fields under a limit of their own. -/
def Fields.Narrows {S : Type} (fields : Fields S) (maxLength : Nat) : Prop :=
  ∀ tag skip slots src, (fields.read maxLength tag skip slots src).Narrows
    (fields.read maxWireLength tag skip slots src)

/-- One field more in front. -/
theorem Fields.narrows_cons {A S : Type} {field : Field A} {rest : Fields S} {maxLength : Nat}
    (hfield : ∀ tag, Wire.Narrows (field.read maxLength tag) (field.read maxWireLength tag))
    (hrest : rest.Narrows maxLength) : (Fields.cons field rest).Narrows maxLength := by
  intro tag skip slots src
  cases skip with
  | zero =>
    exact (hfield tag slots.1 src).andThen
      (fun r => (hrest (field.tag r.slot tag) 0 slots.2
        { r.source with stack := r.source.stack.nextField }).map fun s => (r.slot, s))
      fun _ hr => hr
  | succ skip => exact (hrest (field.tag slots.1 tag) skip slots.2 src).map fun s => (slots.1, s)

/-- A message of some fields. -/
theorem Layout.narrows_message {S : Type} {type : UInt16} {fields : Fields S}
    {settle : S → Except CodecError Unit × S} {maxLength : Nat} (h : fields.Narrows maxLength) :
    Narrows ((Layout.message type fields settle).read maxLength)
      ((Layout.message type fields settle).read maxWireLength) := by
  intro message src
  simp only [Layout.read]
  split
  · rcases h (-1) (readHeader type fields.count src).source.stack.top.state message.slots
      (readHeader type fields.count src).source with hfailed | hsame
    · simp only [hfailed.not_advance, Bool.false_eq_true, if_false]
      exact .inl hfailed
    · rw [hsame]
      exact .refl _
  · exact .refl _

/-- An array that is handed over as a whole. -/
theorem Reading.Narrows.store {R : Type} {a b : Reading (Option (List R))} (h : a.Narrows b)
    (slot : BatchSlot R) : (slot.store a).Narrows (slot.store b) := by
  refine h.through slot.store fun r hr => ?_
  unfold BatchSlot.store
  rw [hr.not_advance]
  exact hr

mutual
/-- A message is read under a limit as it is without one, or not at all. -/
theorem Layout.narrows : {R : Type} → (layout : Layout R) → (maxLength : Nat) →
    Narrows (layout.read maxLength) (layout.read maxWireLength)
  | _, .message _ fields _, maxLength => Layout.narrows_message (fields.narrows maxLength)
/-- Fields are read under a limit as they are without one, or not at all. -/
theorem Fields.narrows : {S : Type} → (fields : Fields S) → (maxLength : Nat) →
    fields.Narrows maxLength
  | _, .nil, _ => fun _ _ _ _ => .refl _
  | _, .cons field rest, maxLength =>
    Fields.narrows_cons (field.narrows maxLength) (rest.narrows maxLength)
/-- A field is read under a limit as it is without one, or not at all. -/
theorem Field.narrows : {A : Type} → (field : Field A) → (maxLength : Nat) → (tag : Int8) →
    Narrows (field.read maxLength tag) (field.read maxWireLength tag)
  | _, .flag, _, _ => fun _ _ => .refl _
  | _, .ordinal _ _ _ _, _, _ => fun _ _ => .refl _
  | _, .int32, _, _ => fun _ _ => .refl _
  | _, .int64, _, _ => fun _ _ => .refl _
  | _, .uint128, _, _ => fun _ _ => .refl _
  | _, .bytes, maxLength, _ => .readBytes maxLength
  | _, .text onNull, maxLength, _ => .readTextField maxLength onNull
  | _, .longs, maxLength, _ => fun slot src =>
    (Narrows.readSized (fun _ _ _ => .refl _) maxLength _ _ (some slot) src).map _
  | _, .optional layout, maxLength, _ => .readMessage (layout.narrows maxLength) _
  | _, .required name layout, maxLength, _ => .readRequired (layout.narrows maxLength) _ _ name
  | _, .array layout, maxLength, _ => .readMessages (layout.narrows maxLength) _ maxLength
  | _, .batch layout, maxLength, _ => fun slot src =>
    (Narrows.readMessages (layout.narrows maxLength) _ maxLength slot.staged src).store slot
  | _, .keys layout, maxLength, _ => fun slot src =>
    (Narrows.readMessages (layout.narrows maxLength) _ maxLength slot.inbound src).map _
  | _, .values selector value invocation, maxLength, tag => fun slot src => by
    by_cases htag : tag = selector
    · simp only [Field.read, if_pos htag]
      exact (Narrows.readMessages (invocation.narrows maxLength) _ maxLength
        slot.inboundInvocations src).map _
    · simp only [Field.read, if_neg htag]
      exact (Narrows.readMessages (value.narrows maxLength) _ maxLength
        slot.inboundValues src).map _
end

end Enlistment.Wire
