import Enlistment.Proofs.Wire.Continuation

/-!
# Suspended writing of whole messages

As in reading, the frame tells how many fields of a message are done. By recursion
on layouts every message can be written in parts, whatever the room.
-/

namespace Enlistment.Wire

/-! ## Fields -/

/-- Writing fields, of which the first is the one with number `base`, where the frames say. -/
def Fields.writeFrom {S : Type} (fields : Fields S) (base : Nat) (slots : S) (sink : Sink) :
    Writing :=
  fields.write (sink.stack.top.state - base) slots sink

/-- Fields that are resumed where the frames say write on as if never suspended. -/
structure Fields.Continuable {S : Type} (fields : Fields S) (slots : S) : Prop where
  widen : ∀ base (sink : Sink) extra, base ≤ sink.stack.top.state →
    fields.writeFrom base slots (sink.widen extra) =
      (fields.writeFrom base slots sink).resume (fields.writeFrom base slots) extra
  keeps : ∀ skip (sink : Sink), sink.stack.Ahead (fields.write skip slots sink).sink.stack
  room : ∀ skip sink, (fields.write skip slots sink).emitted.length +
    (fields.write skip slots sink).sink.room = sink.room
  tight : ∀ skip sink extra, (fields.write skip slots sink).progress = .incomplete →
    (fields.write skip slots (sink.widen extra)).progress = .advance →
      sink.room < (fields.write skip slots (sink.widen extra)).emitted.length

/-- The fields of a whole message make a continuable writer. -/
theorem Fields.Continuable.writeFrom {S : Type} {fields : Fields S} {slots : S}
    (h : fields.Continuable slots) :
    Wire.Continuable FrameStack.Ahead (fields.writeFrom 0 slots) :=
  ⟨fun sink extra => h.widen 0 sink extra (Nat.zero_le _), fun sink => h.keeps _ sink,
    fun sink => h.room _ sink, fun sink extra => h.tight _ sink extra⟩

/-- The sink at the next field. -/
def Sink.nextField (sink : Sink) : Sink := { sink with stack := sink.stack.nextField }

/-- Fields behind the first one are written on with the rest of them. -/
theorem Fields.writeFrom_of_lt {A S : Type} {field : Field A} {rest : Fields S} {base : Nat}
    (slots : A × S) (sink : Sink) (h : base < sink.stack.top.state) :
    (Fields.cons field rest).writeFrom base slots sink =
      rest.writeFrom (base + 1) slots.2 sink := by
  have hskip : sink.stack.top.state - base = sink.stack.top.state - (base + 1) + 1 := by omega
  simp only [writeFrom, hskip, Fields.write]

/-- At the first field a call writes it before the rest of them. -/
theorem Fields.writeFrom_of_eq {A S : Type} {field : Field A} {rest : Fields S} {base : Nat}
    (slots : A × S) (sink : Sink) (h : sink.stack.top.state = base) :
    (Fields.cons field rest).writeFrom base slots sink =
      (field.write slots.1 sink).andThen fun sink => rest.write 0 slots.2 sink.nextField := by
  have hskip : sink.stack.top.state - base = 0 := by omega
  simp only [writeFrom, hskip, Fields.write, Sink.nextField]

/-- Without fields there is nothing to suspend. -/
theorem Fields.continuable_nil : Fields.nil.Continuable () :=
  ⟨fun _ _ _ _ => rfl, fun _ _ => .refl _, fun _ _ => Nat.zero_add _,
    fun _ sink extra h => by simp [Fields.write, Writing.done] at h⟩

/-- The number of fields done tells a resumed call whether to go on with the first of them. -/
theorem Fields.widen_cons {A S : Type} {field : Field A} {rest : Fields S} {slots : A × S}
    (hfield : Wire.Continuable FrameStack.SameMessage (field.write slots.1))
    (hrest : rest.Continuable slots.2) (base : Nat) (sink : Sink) (extra : Nat)
    (hbase : base ≤ sink.stack.top.state) :
    (Fields.cons field rest).writeFrom base slots (sink.widen extra) =
      ((Fields.cons field rest).writeFrom base slots sink).resume
        ((Fields.cons field rest).writeFrom base slots) extra := by
  have hagain : ∀ sink : Sink, base < sink.stack.top.state →
      (rest.writeFrom (base + 1) slots.2 sink).resume (rest.writeFrom (base + 1) slots.2) extra =
        (rest.writeFrom (base + 1) slots.2 sink).resume
          ((Fields.cons field rest).writeFrom base slots) extra := by
    intro sink hlt
    have hahead := (hrest.keeps (sink.stack.top.state - (base + 1)) sink).state
    refine Writing.resume_congr fun _ => (writeFrom_of_lt slots (Sink.widen _ extra) ?_).symm
    exact Nat.lt_of_lt_of_le hlt hahead
  rcases Nat.lt_or_eq_of_le hbase with hlt | heq
  · rw [writeFrom_of_lt slots sink hlt, writeFrom_of_lt slots (sink.widen extra) hlt,
      hrest.widen (base + 1) sink extra hlt, hagain sink hlt]
  · have hkeeps := hfield.keeps sink
    rw [writeFrom_of_eq slots sink heq.symm, writeFrom_of_eq slots (sink.widen extra) heq.symm,
      hfield.widen]
    rcases hw : field.write slots.1 sink with ⟨_ | _ | e, emitted, sink'⟩
    · rw [hw] at hkeeps
      have hstate : sink'.nextField.stack.top.state = base + 1 := by
        show sink'.stack.top.state + 1 = base + 1
        rw [hkeeps.state, heq]
      have hfrom : ∀ sink : Sink, sink.stack.top.state = base + 1 →
          rest.write 0 slots.2 sink = rest.writeFrom (base + 1) slots.2 sink := by
        intro sink hsink
        simp only [writeFrom, hsink, Nat.sub_self]
      rw [Writing.resume, Writing.andThen_advance, Writing.andThen_advance, Writing.after_resume,
        hfrom _ hstate, ← hagain _ (by omega), ← hrest.widen (base + 1) _ extra (by omega),
        ← hfrom (sink'.nextField.widen extra) hstate]
      rfl
    · rw [hw] at hkeeps
      have hstate : (sink'.widen extra).stack.top.state = base := hkeeps.state.trans heq.symm
      rw [Writing.resume_andThen (by simp)]
      exact Writing.resume_congr fun _ => (writeFrom_of_eq slots (sink'.widen extra) hstate).symm
    · rfl

/-- Fields can be written in parts if each of them can. -/
theorem Fields.continuable_cons {A S : Type} {field : Field A} {rest : Fields S} {slots : A × S}
    (hfield : Wire.Continuable FrameStack.SameMessage (field.write slots.1))
    (hrest : rest.Continuable slots.2) : (Fields.cons field rest).Continuable slots := by
  refine ⟨widen_cons hfield hrest, fun skip sink => ?_, fun skip sink => ?_,
    fun skip sink extra => ?_⟩
  all_goals cases skip with
    | zero => ?_
    | succ skip => ?_
  · have hkeeps := (hfield.keeps sink).ahead
    simp only [Fields.write, Writing.andThen]
    split
    · exact (hkeeps.trans (.nextField _)).trans
        (hrest.keeps 0 (field.write slots.1 sink).sink.nextField)
    · exact hkeeps
  · exact hrest.keeps skip sink
  · exact Writing.room_andThen (hfield.room sink) fun sink => hrest.room 0 sink.nextField
  · exact hrest.room skip sink
  · exact hfield.tight_andThen (fun sink extra => hrest.tight 0 sink.nextField extra) sink extra
  · exact hrest.tight skip sink extra

/-! ## Messages -/

section

variable {type : UInt16} {fieldCount : Nat} {flags : UInt8}

/-- A header that is written is not written again. -/
theorem writeHeaderOnce_of_done (sink : Sink) (h : sink.stack.top.headerDone = true) :
    writeHeaderOnce type fieldCount flags sink = .done sink := by
  simp only [writeHeaderOnce, h, if_true]

/-- At the start of a message a call writes its header. -/
theorem writeHeaderOnce_of_not_done (sink : Sink) (h : sink.stack.top.headerDone = false) :
    writeHeaderOnce type fieldCount flags sink =
      (put (headerBytes type fieldCount flags) sink).andThen fun sink =>
        .done { sink with stack := sink.stack.headerWritten } := by
  simp only [writeHeaderOnce, writeHeader, h, Bool.false_eq_true, if_false]

/-- A header can be waited for. -/
theorem Continuable.writeHeaderOnce (type : UInt16) (fieldCount : Nat) (flags : UInt8) :
    Continuable FrameStack.SameOuter (writeHeaderOnce type fieldCount flags) := by
  have hput := Continuable.put (headerBytes type fieldCount flags)
  refine ⟨fun sink extra => ?_, fun sink => ?_, fun sink => ?_, fun sink extra hshort hwide => ?_⟩
  all_goals cases hdone : sink.stack.top.headerDone
  · rw [writeHeaderOnce_of_not_done sink hdone,
      writeHeaderOnce_of_not_done (sink.widen extra) hdone]
    rcases Nat.lt_or_ge sink.room (headerBytes type fieldCount flags).length with h | h
    · rw [put_of_lt h]
      exact (writeHeaderOnce_of_not_done (sink.widen extra) hdone).symm
    · rw [hput.widen, put_of_le h]
      rfl
  · rw [writeHeaderOnce_of_done sink hdone, writeHeaderOnce_of_done (sink.widen extra) hdone]
    rfl
  · rw [writeHeaderOnce_of_not_done sink hdone]
    rcases Nat.lt_or_ge sink.room (headerBytes type fieldCount flags).length with h | h
    · rw [put_of_lt h]
      exact rfl
    · rw [put_of_le h]
      exact rfl
  · rw [writeHeaderOnce_of_done sink hdone]
    exact rfl
  · rw [writeHeaderOnce_of_not_done sink hdone]
    exact Writing.room_andThen (hput.room sink) fun sink => Nat.zero_add _
  · rw [writeHeaderOnce_of_done sink hdone]
    exact Nat.zero_add _
  · rw [writeHeaderOnce_of_not_done (sink.widen extra) hdone] at hwide ⊢
    rw [writeHeaderOnce_of_not_done sink hdone] at hshort
    refine hput.tight_andThen (fun sink extra h => ?_) sink extra hshort hwide
    simp [Writing.done] at h
  · simp [writeHeaderOnce_of_done sink hdone, Writing.done] at hshort

/-- A header that is complete stays complete. -/
theorem writeHeaderOnce_advance {sink : Sink}
    (h : (writeHeaderOnce type fieldCount flags sink).progress = .advance) :
    (writeHeaderOnce type fieldCount flags sink).sink.stack.top.headerDone = true := by
  cases hdone : sink.stack.top.headerDone with
  | true =>
    rw [writeHeaderOnce_of_done sink hdone]
    exact hdone
  | false =>
    rw [writeHeaderOnce_of_not_done sink hdone] at h ⊢
    rcases Nat.lt_or_ge sink.room (headerBytes type fieldCount flags).length with hlt | hle
    · simp [put_of_lt hlt, Writing.andThen] at h
    · rw [put_of_le hle]
      rfl

end

/-- Writes the fields of a message behind its header. -/
def writeBody {S : Type} (type : UInt16) (fields : Fields S) (slots : S) (sink : Sink) : Writing :=
  (fields.writeFrom 0 slots sink).andThen fun sink =>
    .stop (checkFieldCount type fields.count sink.stack.top.state) sink

/-- A message that may be written is its header and its fields. -/
theorem Layout.write_of_ready {S : Type} (type : UInt16) {fields : Fields S}
    (settle : S → Except CodecError Unit × S) {message : Record S}
    (h : fields.ready message.slots = true) (sink : Sink) :
    (Layout.message type fields settle).write message sink =
      (writeHeaderOnce type fields.count message.flags sink).andThen
        (writeBody type fields message.slots) := by
  simp only [Layout.write, h, if_true]
  rfl

/-- The check of the number of fields neither runs out nor takes room. -/
theorem checkFieldCount_ne (type : UInt16) (fieldCount state : Nat) :
    checkFieldCount type fieldCount state ≠ .incomplete := by
  unfold checkFieldCount
  split <;> simp

section

variable {S : Type} {type : UInt16} {fields : Fields S} {settle : S → Except CodecError Unit × S}

/-- A message goes on behind its header and behind the fields that are done. -/
theorem Layout.widen_message {message : Record S} (hfields : fields.Continuable message.slots)
    (hready : fields.ready message.slots = true) (sink : Sink) (extra : Nat) :
    (Layout.message type fields settle).write message (sink.widen extra) =
      ((Layout.message type fields settle).write message sink).resume
        ((Layout.message type fields settle).write message) extra := by
  have hheader := Continuable.writeHeaderOnce type fields.count message.flags
  have hwrite := Layout.write_of_ready type settle hready
  rw [hwrite, hwrite, hheader.widen]
  rcases hw : writeHeaderOnce type fields.count message.flags sink with ⟨_ | _ | e, emitted, sink'⟩
  · have hdone := writeHeaderOnce_advance (by rw [hw])
    rw [hw] at hdone
    rw [Writing.resume, Writing.andThen_advance, Writing.andThen_advance, Writing.after_resume]
    refine congrArg (Writing.after emitted) ?_
    have hkeeps := hfields.writeFrom.keeps sink'
    simp only [writeBody, hfields.writeFrom.widen]
    rcases hw' : fields.writeFrom 0 message.slots sink' with ⟨_ | _ | e, emitted', sink''⟩
    · rw [Writing.resume, Writing.andThen_advance, Writing.andThen_advance, Writing.after_resume]
      have hne := checkFieldCount_ne type fields.count sink''.stack.top.state
      simp only [Writing.stop, Sink.widen_stack]
      cases hcheck : checkFieldCount type fields.count sink''.stack.top.state with
      | advance => rfl
      | incomplete => exact absurd hcheck hne
      | failed e => rfl
    · rw [hw'] at hkeeps
      have hdone' : (sink''.widen extra).stack.top.headerDone = true :=
        hkeeps.headerDone.trans hdone
      rw [Writing.resume_andThen (by simp)]
      refine Writing.resume_congr fun _ => ?_
      show _ = Layout.write _ message (sink''.widen extra)
      rw [hwrite, writeHeaderOnce, hdone', if_pos rfl]
      rfl
    · rfl
  · rw [Writing.resume_andThen (by simp)]
    exact Writing.resume_congr fun _ => (hwrite _).symm
  · rfl

/-- A message can be written in parts if its fields can. -/
theorem Layout.continuable_message {message : Record S}
    (hfields : fields.Continuable message.slots) :
    Continuable FrameStack.SameOuter ((Layout.message type fields settle).write message) := by
  cases hready : fields.ready message.slots with
  | false =>
    have hwrite : (Layout.message type fields settle).write message =
        fun sink => ⟨.failed .notMarshalled, [], sink⟩ := by
      funext sink
      simp only [Layout.write, hready, Bool.false_eq_true, if_false, Writing.stop]
    rw [hwrite]
    exact ⟨fun _ _ => rfl, fun _ => rfl, fun _ => Nat.zero_add _, fun _ _ h => by simp at h⟩
  | true =>
    have hheader := Continuable.writeHeaderOnce type fields.count message.flags
    have hwrite := Layout.write_of_ready type settle hready
    have hbody := hfields.writeFrom
    have hcheck : ∀ sink : Sink, (Writing.stop
        (checkFieldCount type fields.count sink.stack.top.state) sink).emitted.length +
        sink.room = sink.room := fun sink => Nat.zero_add _
    refine ⟨widen_message hfields hready, fun sink => ?_, fun sink => ?_,
      fun sink extra hshort hwide => ?_⟩
    · rw [hwrite]
      have houter := hheader.keeps sink
      unfold Writing.andThen
      split
      · have hkeeps := hbody.keeps
          (writeHeaderOnce type fields.count message.flags sink).sink
        have hsink : (writeBody type fields message.slots
            (writeHeaderOnce type fields.count message.flags sink).sink).sink =
            (fields.writeFrom 0 message.slots
              (writeHeaderOnce type fields.count message.flags sink).sink).sink := by
          unfold writeBody Writing.andThen
          split <;> rfl
        show (writeBody type fields message.slots _).sink.stack.outer = sink.stack.outer
        rw [hsink]
        exact hkeeps.outer.trans houter
      · exact houter
    · rw [hwrite]
      exact Writing.room_andThen (hheader.room sink) fun sink =>
        Writing.room_andThen (hbody.room sink) hcheck
    · rw [hwrite] at hshort hwide ⊢
      refine hheader.tight_andThen (hbody.tight_andThen fun sink extra h => ?_) sink extra hshort
        hwide
      exact absurd h (checkFieldCount_ne _ _ _)

end

/-- A field of fixed width can be waited for. -/
theorem Continuable.octets (bs : Bytes) : Continuable FrameStack.SameMessage (Wire.put bs) :=
  (Continuable.put bs).mono fun _ _ h => h.sameField.toSameMessage

mutual
/-- A message can be written in parts. -/
theorem Layout.continuable : {R : Type} → (layout : Layout R) → (message : R) →
    Continuable FrameStack.SameOuter (layout.write message)
  | _, .message _ fields _, message => Layout.continuable_message (fields.continuable message.slots)
/-- Fields can be written in parts. -/
theorem Fields.continuable : {S : Type} → (fields : Fields S) → (slots : S) →
    fields.Continuable slots
  | _, .nil, () => Fields.continuable_nil
  | _, .cons field rest, slots =>
    Fields.continuable_cons (field.continuable slots.1) (rest.continuable slots.2)
/-- A field can be written in parts. -/
theorem Field.continuable : {A : Type} → (field : Field A) → (slot : A) →
    Continuable FrameStack.SameMessage (field.write slot)
  | _, .flag, _ => .octets _
  | _, .ordinal _ _ _ _, _ => .octets _
  | _, .int32, _ => .octets _
  | _, .int64, _ => .octets _
  | _, .uint128, _ => .octets _
  | _, .bytes, slot => .writeBytes slot
  | _, .text _, slot => .writeBytes (slot.text.map Bytes.ofText)
  | _, .longs, slot => .writeArray (fun _ => .put _) (some slot)
  | _, .optional layout, slot =>
    (Continuable.writeMessage layout.continuable slot).mono fun _ _ h => h.sameField.toSameMessage
  | _, .required _ layout, slot =>
    (Continuable.writeNested slot (layout.continuable slot)).mono
      fun _ _ h => h.sameField.toSameMessage
  | _, .array layout, slot => .writeMessages layout.continuable slot
  | _, .batch layout, slot => .writeMessages layout.continuable (some slot.settled)
  | _, .keys layout, slot => .writeMessages layout.continuable slot.settled
  | _, .values selector value invocation, slot => by
    rcases hsettled : slot.settled with _ | items | items
    · have hwrite : (Field.values selector value invocation).write slot =
          Wire.writeMessages value.write none := by
        funext sink
        simp only [Field.write, hsettled]
      exact hwrite ▸ .writeMessages value.continuable none
    · have hwrite : (Field.values selector value invocation).write slot =
          Wire.writeMessages value.write (some items) := by
        funext sink
        simp only [Field.write, hsettled]
      exact hwrite ▸ .writeMessages value.continuable (some items)
    · have hwrite : (Field.values selector value invocation).write slot =
          Wire.writeMessages invocation.write (some items) := by
        funext sink
        simp only [Field.write, hsettled]
      exact hwrite ▸ .writeMessages invocation.continuable (some items)
end

/-! ## Complete messages -/

/-- A unit that is complete was written before a next one that is complete. -/
theorem Writing.andThen_eq_advance {w : Writing} {next : Sink → Writing}
    (h : (w.andThen next).progress = .advance) :
    w.progress = .advance ∧ (next w.sink).progress = .advance ∧
      (w.andThen next).sink = (next w.sink).sink := by
  rcases w with ⟨_ | _ | e, emitted, sink⟩
  · exact ⟨rfl, h, rfl⟩
  · simp [andThen] at h
  · simp [andThen] at h

/-- Nothing is left to do behind the last field. -/
theorem Fields.write_count : {S : Type} → (fields : Fields S) → (slots : S) → (sink : Sink) →
    fields.write fields.count slots sink = .done sink
  | _, .nil, _, _ => rfl
  | _, .cons _ rest, slots, sink => rest.write_count slots.2 sink

/-- Nothing is left of a message that is complete, as long as its frames are kept. -/
theorem Layout.owes_nil {R : Type} (layout : Layout R) {message : R} {sink : Sink}
    (h : (layout.write message sink).progress = .advance) :
    Owes (layout.write message) (layout.write message sink).sink.stack [] := by
  cases layout with
  | message type fields settle =>
    cases hready : fields.ready message.slots with
    | false => simp [Layout.write, hready, Writing.stop] at h
    | true =>
      have hwrite := Layout.write_of_ready type settle hready
      rw [hwrite] at h ⊢
      obtain ⟨hheader, hbody, hsink⟩ := Writing.andThen_eq_advance h
      obtain ⟨hfields, hcheck, hsink'⟩ := Writing.andThen_eq_advance hbody
      rw [hsink, writeBody, hsink']
      have hkeeps := (fields.continuable message.slots).writeFrom.keeps
        (writeHeaderOnce type fields.count message.flags sink).sink
      have hdone := hkeeps.headerDone.trans (writeHeaderOnce_advance hheader)
      generalize hlast : (fields.writeFrom 0 message.slots
        (writeHeaderOnce type fields.count message.flags sink).sink).sink = last at hdone hcheck ⊢
      have hstate : last.stack.top.state = fields.count := by
        simp only [Writing.stop, checkFieldCount] at hcheck
        split at hcheck
        · assumption
        · simp at hcheck
      refine ⟨0, ?_⟩
      show (Writing.progress (Layout.write _ message ⟨last.stack, 0⟩) = _) ∧
        (Layout.write _ message ⟨last.stack, 0⟩).emitted = []
      rw [hwrite, writeHeaderOnce_of_done ⟨last.stack, 0⟩ hdone]
      simp [Writing.done, Writing.andThen, writeBody, Fields.writeFrom, hstate, Fields.write_count,
        Writing.stop, checkFieldCount]

end Enlistment.Wire
