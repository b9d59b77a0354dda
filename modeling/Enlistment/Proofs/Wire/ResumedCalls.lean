import Enlistment.Proofs.Wire.WritingOrder

/-!
# Calls that go on where they were suspended

A call that is suspended in a message leaves the frames of the message in place. The next call
comes first to the field that was suspended, and in it to the message that was. It goes on with
both at these very frames, whatever octets or room it is given.
-/

namespace Enlistment.Wire

/-! ## Reading messages in a field -/

/-- An array that is suspended in an element is suspended in the last one that its call has come
to. The induction is on the number of elements to come. -/
theorem readElements_suspended {R : Type} {create : UInt16 → Option R}
    {read : R → Source → Reading R} (count : Nat) {items : List R} {src : Source}
    (hincomplete : (readElements create read count items src).progress = .incomplete)
    (hstarted : (readElements create read count items src).source.stack.top.messageStarted = true) :
    ∃ p, (elementMessages create read count items src).getLast? = some p ∧
      (readNested read p.1 p.2).progress = .incomplete ∧
      (readElements create read count items src).slot.getLast? =
        some (readNested read p.1 p.2).slot ∧
      (readElements create read count items src).source = (readNested read p.1 p.2).source := by
  induction count generalizing items src with
  | zero => cases hincomplete
  | succ count ih =>
    simp only [readElements, elementMessages] at hincomplete hstarted ⊢
    by_cases hadvance : (readElement create read items src).progress.isAdvance = true
    · simp only [if_pos hadvance] at hincomplete hstarted ⊢
      obtain ⟨p, hlast, hp⟩ := ih hincomplete hstarted
      refine ⟨p, ?_, hp⟩
      rw [List.getLast?_append, hlast]
      rfl
    · simp only [if_neg hadvance, List.append_nil] at hincomplete hstarted ⊢
      cases hnested : nestedMessage create items.getLast? src with
      | none =>
        obtain ⟨progress, -, hidle, helement⟩ := readElement_of_idle hnested
        rw [helement] at hincomplete hstarted
        exact absurd ((hidle hincomplete).symm.trans hstarted) Bool.false_ne_true
      | some p =>
        obtain ⟨item, src'⟩ := p
        refine ⟨(item, src'), rfl, ?_⟩
        rw [readElement_of_nested read hnested] at hincomplete ⊢
        simp only [resumeElement, List.getLast?_concat] at hincomplete ⊢
        simp [hincomplete]

section

variable {R : Type} (layout : Layout R) {maxLength : Nat}

/-- A nested message that is suspended is gone on with one level down. -/
theorem Layout.enter_again {message : R} {src : Source} (bs : Bytes)
    (hincomplete : (readNested (layout.read maxLength) message src).progress = .incomplete) :
    layout.enter (readNested (layout.read maxLength) message src).slot
        ⟨(readNested (layout.read maxLength) message src).source.stack, bs⟩ =
      (layout.enter message src).again maxLength bs := by
  have houter := (layout.resumable maxLength).keeps message { src with stack := src.stack.enter }
  simp only [readNested] at hincomplete ⊢
  simp only [hincomplete, Progress.isAdvance_incomplete, enter, ReadCall.again, ReadCall.reading,
    FrameStack.enter_leave houter]

/-- A message that is suspended is the one that the next call goes on with. -/
theorem Layout.messageCalls_again {slot : Option R} {src : Source}
    (hincomplete :
      (readMessage layout.create (layout.read maxLength) slot src).progress = .incomplete)
    (hstarted : (readMessage layout.create (layout.read maxLength) slot
      src).source.stack.top.messageStarted = true) :
    let r := readMessage layout.create (layout.read maxLength) slot src
    ∃ e, (layout.messageCalls slot src).getLast? = some e ∧
      ∀ bs, (layout.messageCalls r.slot ⟨r.source.stack, bs⟩).head? =
        some (e.again maxLength bs) := by
  intro r
  unfold messageCalls
  cases hnested : nestedMessage layout.create slot src with
  | none =>
    obtain ⟨hstack, -, hidle⟩ := readMessage_of_idle (layout.read maxLength) hnested
    rw [hstack, hidle (by rw [hincomplete]; nofun)] at hstarted
    cases hstarted
  | some p =>
    obtain ⟨message, src'⟩ := p
    have hr : r = resumeMessage (layout.read maxLength) (some message) src' :=
      readMessage_of_nested _ hnested
    refine ⟨layout.enter message src', rfl, fun bs => ?_⟩
    rw [hr]
    rw [readMessage_of_nested _ hnested] at hincomplete hstarted
    simp only [resumeMessage] at hincomplete hstarted ⊢
    simp only [hincomplete, Progress.isAdvance_incomplete, Bool.false_eq_true, if_false]
      at hstarted ⊢
    simp only [nestedMessage, hstarted, if_true, Option.map_some, Option.toList_some,
      List.map_singleton, List.head?_cons, layout.enter_again bs hincomplete]

/-- The next call on an array goes on with the last element if one is announced. -/
theorem Layout.arrayCalls_announced {items : List R} {item : R} {src : Source}
    (hfield : src.stack.top.fieldStarted = true) (hstarted : src.stack.top.messageStarted = true)
    (hroom : src.stack.top.position < src.stack.top.length) (hlast : items.getLast? = some item) :
    (layout.arrayCalls maxLength (some items) src).head? = some (layout.enter item src) := by
  have hcount : src.stack.top.length - src.stack.top.position =
      (src.stack.top.length - src.stack.top.position - 1) + 1 := by omega
  unfold arrayCalls
  simp only [sizedContents, hfield, if_true, Option.map_some, Option.toList_some,
    List.flatMap_singleton]
  rw [hcount]
  simp only [elementMessages, nestedMessage, hstarted, if_true, hlast, Option.map_some,
    Option.toList_some, List.singleton_append, List.map_cons, List.head?_cons]

/-- An element that is suspended is the one that the next call goes on with. -/
theorem Layout.arrayCalls_again {slot : Option (List R)} {src : Source}
    (h : ItemsInOrder layout.ReadsInOrder src.stack.place slot)
    (hincomplete : (readMessages maxLength layout.create (layout.read maxLength) slot
      src).progress = .incomplete)
    (hstarted : (readMessages maxLength layout.create (layout.read maxLength) slot
      src).source.stack.top.messageStarted = true) :
    let r := readMessages maxLength layout.create (layout.read maxLength) slot src
    ∃ e, (layout.arrayCalls maxLength slot src).getLast? = some e ∧
      ∀ bs, (layout.arrayCalls maxLength r.slot ⟨r.source.stack, bs⟩).head? =
        some (e.again maxLength bs) := by
  intro r
  have hkeeps : KeepsOrder (ItemsInOrder layout.ReadsInOrder)
      (readMessages maxLength layout.create (layout.read maxLength)) :=
    .readMessages (layout.resumable maxLength) (layout.keepsOrder maxLength)
      layout.readsInOrder_of_atMessage maxLength
  have horder : ItemsInOrder layout.ReadsInOrder r.source.stack.place r.slot :=
    (hkeeps slot src h).suspended hincomplete
  replace hincomplete : r.progress = .incomplete := hincomplete
  replace hstarted : r.source.stack.top.messageStarted = true := hstarted
  obtain ⟨hfield, hroom⟩ := horder.announced hstarted
  cases hcontents : sizedContents maxLength [] slot src with
  | none =>
    obtain ⟨hstack, -, hidle⟩ := readSized_of_idle "message array" (fun length items src =>
      readElements layout.create (layout.read maxLength) (length - src.stack.top.position) items
        src) hcontents
    replace hstack : r.source.stack = src.stack := hstack
    replace hidle : (∀ e, r.progress ≠ .failed e) → src.stack.top.fieldStarted = false := hidle
    rw [hstack, hidle (by rw [hincomplete]; nofun)] at hfield
    cases hfield
  | some contents =>
    obtain ⟨items, src'⟩ := contents
    have hr : r = (readElements layout.create (layout.read maxLength)
        (src'.stack.top.length - src'.stack.top.position) items src').map some :=
      readSized_of_contents "message array" _ hcontents
    clear_value r
    subst hr
    obtain ⟨p, hlast, hsuspended, hitem, hsource⟩ :=
      readElements_suspended _ hincomplete hstarted
    refine ⟨layout.enter p.1 p.2, ?_, fun bs => ?_⟩
    · unfold arrayCalls
      simp only [hcontents, Option.toList_some, List.flatMap_singleton, List.getLast?_map, hlast,
        Option.map_some]
    · rw [← layout.enter_again bs hsuspended, ← hsource]
      exact layout.arrayCalls_announced hfield hstarted hroom hitem

end

/-- A message that must be there is suspended as one that may be absent is. -/
theorem readRequired_suspended {R : Type} {create : UInt16 → Option R} {blank : R}
    {read : R → Source → Reading R} {name : String} {slot : R} {src : Source}
    (h : (readRequired create blank read name slot src).progress = .incomplete) :
    readMessage create read (some slot) src =
      ⟨.incomplete, some (readRequired create blank read name slot src).slot,
        (readRequired create blank read name slot src).source⟩ := by
  unfold readRequired at h ⊢
  rcases hr : readMessage create read (some slot) src with ⟨_ | _ | e, _ | found, src'⟩ <;>
    rw [hr] at h
  · cases h
  · cases h
  · obtain ⟨message, hcontra⟩ := readMessage_incomplete hr
    cases hcontra
  · rfl
  · cases h
  · cases h

/-- An array that is handed over as a whole is staged while it is suspended. -/
theorem BatchSlot.store_suspended {R : Type} {slot : BatchSlot R}
    {r : Reading (Option (List R))} (h : (slot.store r).progress = .incomplete) :
    r = ⟨.incomplete, (slot.store r).slot.staged, (slot.store r).source⟩ := by
  unfold store at h ⊢
  rcases r with ⟨_ | _ | e, items, src⟩
  · cases h
  · rfl
  · cases h

/-- A message that is suspended in a field is the one that the next call on the field goes on
with. -/
theorem Field.messageCalls_again {A : Type} (field : Field A) {maxLength : Nat} {tag : Int8}
    {slot : A} {src : Source} (h : field.ReadsInOrder tag src.stack.place slot)
    (hincomplete : (field.read maxLength tag slot src).progress = .incomplete)
    (hstarted : (field.read maxLength tag slot src).source.stack.top.messageStarted = true) :
    let r := field.read maxLength tag slot src
    ∃ e, (field.messageCalls maxLength tag slot src).getLast? = some e ∧
      ∀ bs, (field.messageCalls maxLength tag r.slot ⟨r.source.stack, bs⟩).head? =
        some (e.again maxLength bs) := by
  have horder := (field.keepsOrder maxLength tag slot src h).suspended hincomplete
  have hno : ∀ {P : Prop},
      (field.read maxLength tag slot src).source.stack.place.top.messageStarted = false → P :=
    fun hidle => absurd (hidle.symm.trans hstarted) Bool.false_ne_true
  cases field with
  | flag => exact hno (Place.AtRest.messageStarted horder)
  | ordinal name count optional blank => exact hno (Place.AtRest.messageStarted horder)
  | int32 => exact hno (Place.AtRest.messageStarted horder)
  | int64 => exact hno (Place.AtRest.messageStarted horder)
  | uint128 => exact hno (Place.AtRest.messageStarted horder)
  | bytes => exact hno (SizedInOrder.messageStarted horder)
  | text onNull => exact hno (SizedInOrder.messageStarted horder)
  | longs => exact hno (SizedInOrder.messageStarted horder)
  | optional layout => exact layout.messageCalls_again hincomplete hstarted
  | required name layout =>
    have hr := readRequired_suspended hincomplete
    have hcalls := layout.messageCalls_again (congrArg Reading.progress hr)
      ((congrArg (fun r => r.source.stack.top.messageStarted) hr).trans hstarted)
    rw [hr] at hcalls
    exact hcalls
  | array layout => exact layout.arrayCalls_again h hincomplete hstarted
  | batch layout =>
    have hr := BatchSlot.store_suspended hincomplete
    have hcalls := layout.arrayCalls_again h (congrArg Reading.progress hr)
      ((congrArg (fun r => r.source.stack.top.messageStarted) hr).trans hstarted)
    rw [hr] at hcalls
    exact hcalls
  | keys layout => exact layout.arrayCalls_again h hincomplete hstarted
  | values selector value invocation =>
    simp only [ReadsInOrder, read, messageCalls] at h hincomplete hstarted ⊢
    split
    · next htag =>
      simp only [if_pos htag] at h hincomplete hstarted ⊢
      exact invocation.arrayCalls_again h hincomplete hstarted
    · next htag =>
      simp only [if_neg htag] at h hincomplete hstarted ⊢
      exact value.arrayCalls_again h hincomplete hstarted

/-! ## Reading fields in a message -/

/-- Fields that are suspended are suspended in the last one that their call has come to, and it is
the first one that the next call comes to. -/
theorem Fields.calls_again (maxLength : Nat) : {S : Type} → (fields : Fields S) → (tag : Int8) →
    (skip : Nat) → (slots : S) → (src : Source) →
    (fields.read maxLength tag skip slots src).progress = .incomplete →
    let r := fields.read maxLength tag skip slots src
    ∃ c more, (fields.calls maxLength tag skip slots src).getLast? = some c ∧
      r.source.stack.top.state = src.stack.top.state + more ∧
      ∀ bs, (fields.calls maxLength tag (skip + more) r.slot ⟨r.source.stack, bs⟩).head? =
        some (c.again maxLength bs)
  | _, .nil, _, _, _, _, h => nomatch h
  | _, .cons field rest, tag, skip + 1, slots, src, h => by
    obtain ⟨c, more, hlast, hstate, hagain⟩ :=
      rest.calls_again maxLength (field.tag slots.1 tag) skip slots.2 src h
    refine ⟨c, more, hlast, hstate, fun bs => ?_⟩
    rw [Nat.add_right_comm]
    exact hagain bs
  | _, .cons field rest, tag, 0, slots, src, h => by
    have hkeeps := (field.resumable maxLength tag).keeps slots.1 src
    simp only [read, calls] at h ⊢
    by_cases hadvance : (field.read maxLength tag slots.1 src).progress.isAdvance = true
    · simp only [if_pos hadvance] at h ⊢
      obtain ⟨c, more, hlast, hstate, hagain⟩ := rest.calls_again maxLength _ 0 slots.2 _ h
      refine ⟨c, more + 1, ?_, ?_, fun bs => ?_⟩
      · rw [List.getLast?_cons, hlast]
        rfl
      · refine hstate.trans ?_
        show (field.read maxLength tag slots.1 src).source.stack.top.state + 1 + more = _
        rw [hkeeps.state]
        omega
      · rw [Nat.zero_add] at hagain ⊢
        exact hagain bs
    · simp only [if_neg hadvance] at h ⊢
      exact ⟨⟨field, tag, slots.1, src⟩, 0, rfl, hkeeps.state, fun bs => rfl⟩

/-- A message that is suspended in a field is gone on with at this field. -/
theorem Layout.fieldCalls_again {R : Type} (layout : Layout R) {maxLength : Nat} {message : R}
    {src : Source} {c : FieldCall}
    (hincomplete : (layout.read maxLength message src).progress = .incomplete)
    (hlast : (layout.fieldCalls maxLength message src).getLast? = some c) (bs : Bytes) :
    let r := layout.read maxLength message src
    (layout.fieldCalls maxLength r.slot ⟨r.source.stack, bs⟩).head? =
      some (c.again maxLength bs) := by
  cases layout with
  | message type fields settle =>
    have hheader := readHeader_stack type fields.count src
    simp only [fieldCalls, read] at hincomplete hlast ⊢
    rcases hr : readHeader type fields.count src with ⟨_ | _ | e, ⟨⟩, src'⟩ <;>
      rw [hr] at hheader hincomplete hlast
    · have hdone : src'.stack.top.headerDone = true := hheader.2.2 rfl
      simp only [Progress.isAdvance_advance, if_true] at hincomplete hlast ⊢
      have hkeeps := (fields.resumable maxLength).keeps (-1) src'.stack.top.state message.slots src'
      have hcalls := fields.calls_again maxLength (-1) src'.stack.top.state message.slots src'
      rcases hr' : fields.read maxLength (-1) src'.stack.top.state message.slots src' with
        ⟨_ | _ | e, slots, src''⟩ <;> rw [hr'] at hincomplete hkeeps hcalls
      · simp only [Progress.isAdvance_advance, if_true] at hincomplete
        split at hincomplete
        · cases hsettle : (settle slots).1 <;> simp [hsettle, Progress.ofCheck] at hincomplete
        · exact absurd hincomplete (checkFieldCount_ne _ _ _)
      · obtain ⟨c', more, hlast', hstate, hagain⟩ := hcalls rfl
        obtain rfl := Option.some.inj (hlast.symm.trans hlast')
        have hdone' : src''.stack.top.headerDone = true := hkeeps.headerDone.trans hdone
        simp only [readHeader, Progress.isAdvance_incomplete, Bool.false_eq_true, if_false, hdone',
          if_true, Progress.isAdvance_advance]
        rw [show src''.stack.top.state = src'.stack.top.state + more from hstate]
        exact hagain bs
      · cases hincomplete
    · cases hlast
    · cases hlast

/-! ## Writing messages in a field -/

/-- An array that stops does so in the last element that its call has come to, the one at the
position. The induction is on the elements to come. -/
theorem writeEach_stopped {A : Type} {write : A → Sink → Writing}
    (hwrite : ∀ item, Continuable FrameStack.SameFrame (write item)) {items : List A}
    (left : List A) {sink : Sink} (hleft : items.drop sink.stack.top.position = left)
    (hne : (writeEach write left sink).progress ≠ .advance) :
    ∃ p, (elementWrites write left sink).getLast? = some p ∧
      (write p.1 p.2).progress ≠ .advance ∧
      (writeEach write left sink).sink = (write p.1 p.2).sink ∧
      items[(writeEach write left sink).sink.stack.top.position]? = some p.1 := by
  induction left generalizing sink with
  | nil => exact absurd rfl hne
  | cons item rest ih =>
    have htop := ((hwrite item).keeps sink).top
    simp only [writeEach, elementWrites, Writing.andThen] at hne ⊢
    by_cases hadvance : (write item sink).progress.isAdvance = true
    · simp only [if_pos hadvance] at hne ⊢
      have hnext : items.drop (write item sink).sink.nextElement.stack.top.position = rest := by
        show items.drop ((write item sink).sink.stack.top.position + 1) = rest
        rw [htop, ← List.tail_drop, hleft, List.tail_cons]
      obtain ⟨p, hlast, hp⟩ := ih hnext hne
      refine ⟨p, ?_, hp⟩
      rw [List.getLast?_cons, hlast]
      rfl
    · simp only [if_neg hadvance] at hne ⊢
      refine ⟨(item, sink), rfl, hne, rfl, ?_⟩
      rw [htop, ← List.head?_drop, hleft]
      rfl

section

variable {R : Type} (layout : Layout R)

/-- A nested message that stops is gone on with one level down. -/
theorem Layout.nestedWrite_again {message : R} {sink : Sink} (room : Nat)
    (hne : (writeNested layout.write message sink).progress ≠ .advance) :
    layout.nestedWrite message ⟨(writeNested layout.write message sink).sink.stack, room⟩ =
      (layout.nestedWrite message sink).again room := by
  have houter := (layout.continuable message).keeps { sink with stack := sink.stack.enter }
  have hleft : (layout.write message { sink with stack := sink.stack.enter }).progress.isAdvance =
      false := eq_false_of_ne_true fun hadvance => hne (Progress.eq_advance hadvance)
  simp only [writeNested, hleft, nestedWrite, WriteCall.again, WriteCall.writing,
    FrameStack.enter_leave houter]

/-- The next call on an array goes on with the element at the position. -/
theorem Layout.arrayWrites_started {items : List R} {item : R} {sink : Sink}
    (hfield : sink.stack.top.fieldStarted = true)
    (hitem : items[sink.stack.top.position]? = some item) :
    (layout.arrayWrites (some items) sink).head? = some (layout.nestedWrite item sink) := by
  rw [← List.head?_drop] at hitem
  obtain ⟨rest, hrest⟩ := List.head?_eq_some_iff.mp hitem
  simp only [arrayWrites, contentsSink, hfield, if_true, Option.toList_some,
    List.flatMap_singleton, Option.getD_some, hrest, elementWrites, List.map_cons,
    List.head?_cons]

/-- An element in which an array stops is the one that the next call goes on with. -/
theorem Layout.arrayWrites_again {slot : Option (List R)} {sink : Sink} {e : WriteCall}
    (hne : (writeMessages layout.write slot sink).progress ≠ .advance)
    (hlast : (layout.arrayWrites slot sink).getLast? = some e) (room : Nat) :
    (layout.arrayWrites slot ⟨(writeMessages layout.write slot sink).sink.stack, room⟩).head? =
      some (e.again room) := by
  have hwrite : ∀ item, Continuable FrameStack.SameFrame (writeNested layout.write item) :=
    fun item => .writeNested item (layout.continuable item)
  cases slot with
  | none =>
    simp only [arrayWrites, Option.map_none, Option.getD_none, List.drop_nil, elementWrites]
      at hlast
    cases hsink : contentsSink none sink <;> simp [hsink] at hlast
  | some items =>
    simp only [arrayWrites, Option.map_some, Option.getD_some] at hlast
    cases hsink : contentsSink (some items.length) sink with
    | none => simp [hsink] at hlast
    | some sink' =>
      have hstarted : sink'.stack.top.fieldStarted = true := by
        obtain ⟨hstarted, rfl⟩ | ⟨-, hstack⟩ := contentsSink_cases hsink
        · exact hstarted
        · rw [hstack]
          rfl
      obtain ⟨bs, hcontents⟩ := writeSized_of_contents (fun sink => writeEach
        (writeNested layout.write) (items.drop sink.stack.top.position) sink) hsink
      replace hcontents : writeMessages layout.write (some items) sink = _ := hcontents
      rw [hcontents] at hne ⊢
      obtain ⟨p, hlast', hstopped, hp, hitem⟩ := writeEach_stopped hwrite _ rfl hne
      have hkeeps := writeEach_keeps hwrite (items.drop sink'.stack.top.position) sink'
      simp only [hsink, Option.toList_some, List.flatMap_singleton, List.getLast?_map, hlast',
        Option.map_some, Option.some.injEq] at hlast
      subst hlast
      rw [← layout.nestedWrite_again room hstopped, ← hp]
      exact layout.arrayWrites_started (hkeeps.fieldStarted.trans hstarted) hitem

end

/-- A message in which a field stops is the one that the next call on the field goes on with. -/
theorem Field.messageWrites_again {A : Type} (field : Field A) {slot : A} {sink : Sink}
    {e : WriteCall} (hne : (field.write slot sink).progress ≠ .advance)
    (hlast : (field.messageWrites slot sink).getLast? = some e) (room : Nat) :
    (field.messageWrites slot ⟨(field.write slot sink).sink.stack, room⟩).head? =
      some (e.again room) := by
  cases field with
  | optional layout =>
    cases slot with
    | none => cases hlast
    | some message =>
      obtain rfl := Option.some.inj hlast
      exact congrArg some (layout.nestedWrite_again room hne)
  | required name layout =>
    obtain rfl := Option.some.inj hlast
    exact congrArg some (layout.nestedWrite_again room hne)
  | array layout => exact layout.arrayWrites_again hne hlast room
  | batch layout => exact layout.arrayWrites_again hne hlast room
  | keys layout => exact layout.arrayWrites_again hne hlast room
  | values selector value invocation =>
    rcases hsettled : slot.settled with _ | items | items <;>
      simp only [write, messageWrites, hsettled] at hne hlast ⊢
    · cases hlast
    · exact value.arrayWrites_again hne hlast room
    · exact invocation.arrayWrites_again hne hlast room
  | _ => cases hlast

/-! ## Writing fields in a message -/

/-- Fields that stop do so in the last one that their call has come to, and it is the first one
that the next call comes to. -/
theorem Fields.writes_again : {S : Type} → (fields : Fields S) → (skip : Nat) → (slots : S) →
    (sink : Sink) → (fields.write skip slots sink).progress ≠ .advance →
    let w := fields.write skip slots sink
    ∃ c more, (fields.writes skip slots sink).getLast? = some c ∧
      w.sink.stack.top.state = sink.stack.top.state + more ∧
      ∀ room, (fields.writes (skip + more) slots ⟨w.sink.stack, room⟩).head? =
        some (c.again room)
  | _, .nil, _, _, _, h => absurd rfl h
  | _, .cons _ rest, skip + 1, slots, sink, h => by
    obtain ⟨c, more, hlast, hstate, hagain⟩ := rest.writes_again skip slots.2 sink h
    refine ⟨c, more, hlast, hstate, fun room => ?_⟩
    rw [Nat.add_right_comm]
    exact hagain room
  | _, .cons field rest, 0, slots, sink, h => by
    have hkeeps := (field.continuable slots.1).keeps sink
    simp only [write, writes, Writing.andThen] at h ⊢
    by_cases hadvance : (field.write slots.1 sink).progress.isAdvance = true
    · simp only [if_pos hadvance] at h ⊢
      obtain ⟨c, more, hlast, hstate, hagain⟩ :=
        rest.writes_again 0 slots.2 (field.write slots.1 sink).sink.nextField h
      refine ⟨c, more + 1, ?_, hstate.trans ?_, fun room => ?_⟩
      · rw [List.getLast?_cons, hlast]
        rfl
      · show (field.write slots.1 sink).sink.stack.top.state + 1 + more = _
        rw [hkeeps.state]
        omega
      · rw [Nat.zero_add] at hagain ⊢
        exact hagain room
    · simp only [if_neg hadvance] at h ⊢
      exact ⟨⟨field, slots.1, sink⟩, 0, rfl, hkeeps.state, fun room => rfl⟩

/-- A message that stops in a field is gone on with at this field. -/
theorem Layout.fieldWrites_again {R : Type} (layout : Layout R) {message : R} {sink : Sink}
    {c : FieldWrite} (h : layout.WritesInOrder sink.stack.place message)
    (hne : (layout.write message sink).progress ≠ .advance)
    (hlast : (layout.fieldWrites message sink).getLast? = some c) (room : Nat) :
    (layout.fieldWrites message ⟨(layout.write message sink).sink.stack, room⟩).head? =
      some (c.again room) := by
  cases layout with
  | message type fields settle =>
    cases hready : fields.ready message.slots with
    | false => simp [fieldWrites, hready] at hlast
    | true =>
      obtain ⟨done, hplace⟩ := writeHeaderOnce_place type fields.count message.flags sink
      have horder := fields.writesInOrder_withHeader done sink.stack.top.flags h.2
      rw [← hplace] at horder
      have hheader := @writeHeaderOnce_advance type fields.count message.flags sink
      rw [Layout.write_of_ready type settle hready] at hne ⊢
      simp only [fieldWrites, hready, Bool.true_and] at hlast ⊢
      rcases hw : writeHeaderOnce type fields.count message.flags sink with
        ⟨_ | _ | e, emitted, sink'⟩ <;> rw [hw] at hplace horder hheader hne hlast
      · have hstate : sink'.stack.top.state = sink.stack.top.state :=
          congrArg (fun p => p.top.state) hplace
        replace hlast : (fields.writes sink'.stack.top.state message.slots sink').getLast? =
          some c := hlast
        replace horder : fields.WritesInOrder sink'.stack.top.state sink'.stack.place
          message.slots := by rw [hstate]; exact horder
        have hbody : writeBody type fields message.slots sink' = _ :=
          writeBody_eq (fields.keepsPlace message.slots) (Nat.le_trans (Nat.le_of_eq hstate) h.1)
            horder
        rw [Writing.andThen_advance, Writing.after_progress, hbody] at hne
        obtain ⟨c', more, hlast', hmore, hagain⟩ :=
          fields.writes_again sink'.stack.top.state message.slots sink' hne
        obtain rfl := Option.some.inj (hlast.symm.trans hlast')
        have hkeeps := (fields.continuable message.slots).keeps sink'.stack.top.state sink'
        have hdone := hkeeps.headerDone.trans (hheader rfl)
        simp only [Writing.andThen_advance, Writing.after_sink, hbody]
        rw [writeHeaderOnce_of_done ⟨_, room⟩ hdone]
        simp only [Writing.done, Progress.isAdvance_advance, if_true]
        rw [hmore]
        exact hagain room
      · cases hlast
      · cases hlast

end Enlistment.Wire
