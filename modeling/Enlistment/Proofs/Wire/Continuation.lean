import Enlistment.Proofs.Wire.Frames
import Enlistment.Wire.Write

/-!
# Suspended writing

A call that runs out of room and is made again with more of it must emit what it
would have emitted with all of it at once, and it runs out only if there really is
too little. A writer of which this holds is called continuable. This module shows
it for units and arrays.
-/

namespace Enlistment.Wire

/-- The sink with more room. -/
def Sink.widen (sink : Sink) (extra : Nat) : Sink := { sink with room := sink.room + extra }

/-- A wider sink has the same frames. -/
@[simp] theorem Sink.widen_stack (sink : Sink) (extra : Nat) :
    (sink.widen extra).stack = sink.stack := rfl

/-- A wider sink has more room. -/
@[simp] theorem Sink.widen_room (sink : Sink) (extra : Nat) :
    (sink.widen extra).room = sink.room + extra := rfl

namespace Writing

/-- The outcome of a call before which other octets were emitted. -/
def after (bs : Bytes) (w : Writing) : Writing := ⟨w.progress, bs ++ w.emitted, w.sink⟩

/-- Octets before a step leave its progress alone. -/
@[simp] theorem after_progress (bs : Bytes) (w : Writing) :
    (w.after bs).progress = w.progress := rfl

/-- Octets before a step come before what it emits. -/
@[simp] theorem after_emitted (bs : Bytes) (w : Writing) :
    (w.after bs).emitted = bs ++ w.emitted := rfl

/-- Octets before a step leave its sink alone. -/
@[simp] theorem after_sink (bs : Bytes) (w : Writing) : (w.after bs).sink = w.sink := rfl

/-- No octets before a step make no difference. -/
@[simp] theorem after_nil (w : Writing) : w.after [] = w := rfl

/-- The outcome of a call once there is more room: a call that ran out is made again. -/
def resume (write : Sink → Writing) (extra : Nat) : Writing → Writing
  | ⟨.incomplete, emitted, sink⟩ => (write (sink.widen extra)).after emitted
  | ⟨.advance, emitted, sink⟩ => ⟨.advance, emitted, sink.widen extra⟩
  | ⟨.failed e, emitted, sink⟩ => ⟨.failed e, emitted, sink.widen extra⟩

/-- Octets before a call stay before it when it is made again. -/
theorem after_resume (write : Sink → Writing) (extra : Nat) (bs : Bytes) (w : Writing) :
    (w.after bs).resume write extra = (w.resume write extra).after bs := by
  rcases w with ⟨_ | _ | e, emitted, sink⟩
  · rfl
  · simp only [after, resume, List.append_assoc]
  · rfl

/-- A call may be made again by another writer that does the same from there on. -/
theorem resume_congr {w : Writing} {write write' : Sink → Writing} {extra : Nat}
    (h : w.progress = .incomplete →
      write (w.sink.widen extra) = write' (w.sink.widen extra)) :
    w.resume write extra = w.resume write' extra := by
  rcases w with ⟨_ | _ | e, emitted, sink⟩
  · rfl
  · simp only [resume, h rfl]
  · rfl

/-- A call that completed its unit leads on to the next one. -/
theorem andThen_advance (bs : Bytes) (sink : Sink) (next : Sink → Writing) :
    (Writing.mk .advance bs sink).andThen next = (next sink).after bs := rfl

/-- A unit that ran out or failed keeps the next one from being written. -/
theorem resume_andThen {w : Writing} (h : w.progress ≠ .advance) (write next : Sink → Writing)
    (extra : Nat) :
    (w.resume write extra).andThen next =
      (w.andThen next).resume (fun sink => (write sink).andThen next) extra := by
  rcases w with ⟨_ | _ | e, emitted, sink⟩
  · exact absurd rfl h
  · by_cases hdone : (write (sink.widen extra)).progress.isAdvance = true
    · simp only [resume, andThen, after, hdone, Progress.isAdvance_incomplete, if_true,
        Bool.false_eq_true, if_false, List.append_assoc]
    · simp only [resume, andThen, after, hdone, Progress.isAdvance_incomplete, Bool.false_eq_true,
        if_false]
  · rfl

end Writing

/-- A writer that makes no difference between room that is there before a call and room
that is there in the next one, and that leaves of the frames what `keeps` says. -/
structure Continuable (keeps : FrameStack → FrameStack → Prop) (write : Sink → Writing) :
    Prop where
  widen : ∀ sink extra, write (sink.widen extra) = (write sink).resume write extra
  keeps : ∀ sink, keeps sink.stack (write sink).sink.stack
  /-- Every octet emitted takes room. -/
  room : ∀ sink, (write sink).emitted.length + (write sink).sink.room = sink.room
  /-- A call that runs out lacks room for the octets of its unit. -/
  tight : ∀ sink extra, (write sink).progress = .incomplete →
    (write (sink.widen extra)).progress = .advance →
      sink.room < (write (sink.widen extra)).emitted.length

/-- A weaker promise about the frames. -/
theorem Continuable.mono {keeps keeps' : FrameStack → FrameStack → Prop} {write : Sink → Writing}
    (h : Continuable keeps write) (hkeeps : ∀ s t, keeps s t → keeps' s t) :
    Continuable keeps' write :=
  ⟨h.widen, fun sink => hkeeps _ _ (h.keeps sink), h.room, h.tight⟩

/-! ## Units in a row -/

/-- Two units in a row take the room that each of them takes. -/
theorem Writing.room_andThen {w : Writing} {next : Sink → Writing} {room : Nat}
    (hw : w.emitted.length + w.sink.room = room)
    (hnext : ∀ sink, (next sink).emitted.length + (next sink).sink.room = sink.room) :
    (w.andThen next).emitted.length + (w.andThen next).sink.room = room := by
  have hroom := hnext w.sink
  unfold andThen
  split
  · simp only [List.length_append]
    omega
  · exact hw

/-- Two units in a row run out only if there is too little room for both. -/
theorem Continuable.tight_andThen {keeps : FrameStack → FrameStack → Prop}
    {first next : Sink → Writing} (hfirst : Continuable keeps first)
    (hnext : ∀ sink extra, (next sink).progress = .incomplete →
      (next (sink.widen extra)).progress = .advance →
        sink.room < (next (sink.widen extra)).emitted.length)
    (sink : Sink) (extra : Nat) (hshort : ((first sink).andThen next).progress = .incomplete)
    (hwide : ((first (sink.widen extra)).andThen next).progress = .advance) :
    sink.room < ((first (sink.widen extra)).andThen next).emitted.length := by
  have hroom := hfirst.room sink
  have htight := hfirst.tight sink extra
  have hwiden := hfirst.widen sink extra
  rcases hw : first sink with ⟨_ | _ | e, emitted, sink'⟩
  · rw [hw] at hwiden hroom hshort
    rw [hwiden] at hwide ⊢
    simp only [Writing.resume, Writing.andThen_advance, Writing.after_progress,
      Writing.after_emitted, List.length_append] at hwide hshort hroom ⊢
    have hlt := hnext sink' extra hshort hwide
    omega
  · rcases hw' : first (sink.widen extra) with ⟨_ | _ | e, emitted', sink''⟩
    · have hlt := htight (by rw [hw]) (by rw [hw'])
      rw [hw'] at hlt
      simp only [Writing.andThen_advance, Writing.after_emitted, List.length_append] at hlt ⊢
      omega
    · rw [hw'] at hwide
      simp [Writing.andThen] at hwide
    · rw [hw'] at hwide
      simp [Writing.andThen] at hwide
  · rw [hw] at hshort
    simp [Writing.andThen] at hshort

/-! ## Units -/

/-- Where there is nothing to write there is nothing to suspend. -/
theorem Continuable.done : Continuable FrameStack.SameFrame Writing.done :=
  ⟨fun _ _ => rfl, fun _ => ⟨rfl, rfl⟩, fun sink => by simp [Writing.done],
    fun sink extra h => by simp [Writing.done] at h⟩

/-- Octets that stay together wait for enough room. -/
theorem put_of_lt {bs : Bytes} {sink : Sink} (h : sink.room < bs.length) :
    put bs sink = ⟨.incomplete, [], sink⟩ := by
  simp only [put, if_pos h, Writing.stop]

/-- Octets that stay together are emitted once there is room for all of them. -/
theorem put_of_le {bs : Bytes} {sink : Sink} (h : bs.length ≤ sink.room) :
    put bs sink = ⟨.advance, bs, { sink with room := sink.room - bs.length }⟩ := by
  simp only [put, if_neg (Nat.not_lt.mpr h)]

/-- Octets that stay together can be waited for. -/
theorem Continuable.put (bs : Bytes) : Continuable FrameStack.SameFrame (put bs) := by
  refine ⟨fun sink extra => ?_, fun sink => ?_, fun sink => ?_, fun sink extra hshort hwide => ?_⟩
  all_goals rcases Nat.lt_or_ge sink.room bs.length with h | h
  · rw [put_of_lt h, Writing.resume, Writing.after_nil]
  · have h' : bs.length ≤ (sink.widen extra).room := Nat.le_add_right_of_le h
    have hroom : sink.room + extra - bs.length = sink.room - bs.length + extra := by omega
    rw [put_of_le h, put_of_le h', Writing.resume]
    simp only [Sink.widen, hroom]
  · rw [put_of_lt h]
    exact ⟨rfl, rfl⟩
  · rw [put_of_le h]
    exact ⟨rfl, rfl⟩
  · simp [put_of_lt h]
  · rw [put_of_le h]
    exact Nat.add_sub_cancel' h
  · rcases Nat.lt_or_ge (sink.widen extra).room bs.length with h' | h'
    · simp [put_of_lt h'] at hwide
    · rwa [put_of_le h']
  · simp [put_of_le h] at hshort

/-- What a call on a unit behind its length does is decided by its frames alone, not by the
room: it goes on with the contents, it fails on the length, or it writes the length first. -/
theorem writeSized_cases (length : Option Nat) (contents : Sink → Writing) (sink : Sink) :
    (sink.stack.top.fieldStarted = true ∧
        ∀ extra, writeSized length contents (sink.widen extra) = contents (sink.widen extra)) ∨
      (∃ e, ∀ extra,
        writeSized length contents (sink.widen extra) = ⟨.failed e, [], sink.widen extra⟩) ∨
      ∃ bs, ∀ extra, writeSized length contents (sink.widen extra) =
        (put bs (sink.widen extra)).andThen fun sink =>
          contents (sink.modifyTop fun f => { f with fieldStarted := true }) := by
  by_cases hstarted : sink.stack.top.fieldStarted = true
  · refine .inl ⟨hstarted, fun extra => ?_⟩
    simp only [writeSized, Sink.widen_stack, hstarted, if_true]
  · refine .inr ?_
    simp only [writeSized, Sink.widen_stack, hstarted, Bool.false_eq_true, if_false]
    cases encodeLength length with
    | error e => exact .inl ⟨e, fun extra => rfl⟩
    | ok bs => exact .inr ⟨bs, fun extra => rfl⟩

/-- A unit behind its length can be written in parts if its contents can. -/
theorem Continuable.writeSized (length : Option Nat) {contents : Sink → Writing}
    (h : Continuable FrameStack.SameField contents) :
    Continuable FrameStack.SameMessage (writeSized length contents) := by
  let start (sink : Sink) : Sink := sink.modifyTop fun f => { f with fieldStarted := true }
  have hagain : ∀ (sink : Sink) extra, sink.stack.top.fieldStarted = true →
      contents (sink.widen extra) =
        (contents sink).resume (Wire.writeSized length contents) extra := by
    intro sink extra hstarted
    rw [h.widen]
    refine Writing.resume_congr fun _ => ?_
    simp only [Wire.writeSized, Sink.widen_stack,
      (h.keeps sink).fieldStarted.trans hstarted, if_true]
  have hroom : ∀ sink, (contents (start sink)).emitted.length + (contents (start sink)).sink.room =
      sink.room := fun sink => h.room (start sink)
  have htight : ∀ (sink : Sink) extra, (contents (start sink)).progress = .incomplete →
      (contents (start (sink.widen extra))).progress = .advance →
        sink.room < (contents (start (sink.widen extra))).emitted.length :=
    fun sink extra => h.tight (start sink) extra
  refine ⟨fun sink extra => ?_, fun sink => ?_, fun sink => ?_, fun sink extra hshort hwide => ?_⟩
  all_goals
    obtain ⟨hstarted, hwrite⟩ | ⟨e, hwrite⟩ | ⟨bs, hwrite⟩ := writeSized_cases length contents sink
    all_goals have hwrite₀ := hwrite 0
    all_goals rw [show sink.widen 0 = sink from rfl] at hwrite₀
  · rw [hwrite, hwrite₀]
    exact hagain sink extra hstarted
  · rw [hwrite, hwrite₀]
    rfl
  · rw [hwrite, hwrite₀, (Continuable.put bs).widen]
    rcases Nat.lt_or_ge sink.room bs.length with hshort | hle
    · rw [put_of_lt hshort]
      exact (hwrite extra).symm
    · rw [put_of_le hle, Writing.resume, Writing.andThen_advance, Writing.andThen_advance,
        Writing.after_resume]
      exact congrArg (Writing.after bs)
        (hagain (start { sink with room := sink.room - bs.length }) extra rfl)
  · rw [hwrite₀]
    exact (h.keeps sink).toSameMessage
  · rw [hwrite₀]
    exact (FrameStack.SameField.refl _).toSameMessage
  · rw [hwrite₀]
    rcases Nat.lt_or_ge sink.room bs.length with hshort | hle
    · rw [put_of_lt hshort]
      exact (FrameStack.SameField.refl _).toSameMessage
    · rw [put_of_le hle]
      have hkeeps := h.keeps (start { sink with room := sink.room - bs.length })
      exact ⟨hkeeps.outer, hkeeps.state, hkeeps.headerDone, hkeeps.flags⟩
  · rw [hwrite₀]
    exact h.room sink
  · rw [hwrite₀]
    exact Nat.zero_add _
  · rw [hwrite₀]
    exact Writing.room_andThen ((Continuable.put bs).room sink) hroom
  · rw [hwrite] at hwide ⊢
    rw [hwrite₀] at hshort
    exact h.tight sink extra hshort hwide
  · rw [hwrite₀] at hshort
    cases hshort
  · rw [hwrite] at hwide ⊢
    rw [hwrite₀] at hshort
    exact (Continuable.put bs).tight_andThen htight sink extra hshort hwide

/-! ## Byte strings and text -/

/-- The frames with the position in the current unit moved. -/
def FrameStack.seek (s : FrameStack) (position : Nat) : FrameStack :=
  s.modifyTop fun f => { f with position := position }

/-- The top frame stands where it was set. -/
@[simp] theorem FrameStack.top_seek (s : FrameStack) (position : Nat) :
    (s.seek position).top.position = position := rfl

/-- The last place that is set counts. -/
@[simp] theorem FrameStack.seek_seek (s : FrameStack) (p q : Nat) :
    (s.seek p).seek q = s.seek q := rfl

/-- A byte string of which no more is left than there is room for is completed. -/
theorem drainBytes_of_le {bs : Bytes} {s : FrameStack} {room : Nat}
    (h : bs.length ≤ s.top.position + room) :
    drainBytes bs ⟨s, room⟩ = ⟨.advance, bs.drop s.top.position,
      ⟨s.seek (s.top.position + (bs.length - s.top.position)),
        room - (bs.length - s.top.position)⟩⟩ := by
  have htake : (bs.drop s.top.position).take room = bs.drop s.top.position :=
    List.take_of_length_le (by rw [List.length_drop]; omega)
  have hdone : bs.length ≤ s.top.position + (bs.length - s.top.position) := by omega
  simp only [drainBytes, htake, List.length_drop, hdone, decide_true, Progress.ofComplete, if_true,
    FrameStack.seek]

/-- A longer byte string fills the room. -/
theorem drainBytes_of_lt {bs : Bytes} {s : FrameStack} {room : Nat}
    (h : s.top.position + room < bs.length) :
    drainBytes bs ⟨s, room⟩ = ⟨.incomplete, (bs.drop s.top.position).take room,
      ⟨s.seek (s.top.position + room), 0⟩⟩ := by
  have hlen : ((bs.drop s.top.position).take room).length = room := by
    rw [List.length_take, List.length_drop]
    omega
  simp only [drainBytes, hlen, Nat.not_le.mpr h, decide_false, Progress.ofComplete,
    Bool.false_eq_true, if_false, Nat.sub_self, FrameStack.seek]

/-- A byte string that was cut goes on where it was cut. -/
theorem drainBytes_widen (bs : Bytes) (sink : Sink) (extra : Nat) :
    drainBytes bs (sink.widen extra) = (drainBytes bs sink).resume (drainBytes bs) extra := by
  obtain ⟨s, room⟩ := sink
  have hcut : bs.drop s.top.position =
      (bs.drop s.top.position).take room ++ bs.drop (s.top.position + room) := by
    rw [← List.drop_drop, List.take_append_drop]
  simp only [Sink.widen]
  rcases Nat.lt_or_ge (s.top.position + room) bs.length with h | h
  · rw [drainBytes_of_lt h, Writing.resume, Sink.widen, Nat.zero_add]
    rcases Nat.lt_or_ge (s.top.position + (room + extra)) bs.length with h' | h'
    · rw [drainBytes_of_lt h', drainBytes_of_lt (by rw [FrameStack.top_seek]; omega),
        List.take_add, List.drop_drop]
      simp only [FrameStack.top_seek, FrameStack.seek_seek, Writing.after, Nat.add_assoc]
    · have hposition : s.top.position + (bs.length - s.top.position) =
          s.top.position + room + (bs.length - (s.top.position + room)) := by omega
      have hroom : room + extra - (bs.length - s.top.position) =
          extra - (bs.length - (s.top.position + room)) := by omega
      rw [drainBytes_of_le h', drainBytes_of_le (by rw [FrameStack.top_seek]; omega)]
      simp only [FrameStack.top_seek, FrameStack.seek_seek, Writing.after, ← hcut, hposition, hroom]
  · have hroom : room + extra - (bs.length - s.top.position) =
        room - (bs.length - s.top.position) + extra := by omega
    rw [drainBytes_of_le h, drainBytes_of_le (by omega), hroom]
    rfl

/-- A byte string is cut wherever the room ends. -/
theorem Continuable.drainBytes (bs : Bytes) :
    Continuable FrameStack.SameField (drainBytes bs) := by
  refine ⟨drainBytes_widen bs, fun sink => ⟨⟨rfl, rfl, rfl, rfl⟩, rfl, rfl⟩,
    fun ⟨s, room⟩ => ?_, fun ⟨s, room⟩ extra hshort hwide => ?_⟩
  · rcases Nat.lt_or_ge (s.top.position + room) bs.length with h | h
    · rw [drainBytes_of_lt h]
      simp only [List.length_take, List.length_drop]
      omega
    · rw [drainBytes_of_le h]
      simp only [List.length_drop]
      omega
  · rcases Nat.lt_or_ge (s.top.position + (room + extra)) bs.length with h' | h'
    · simp [Sink.widen, drainBytes_of_lt h'] at hwide
    · rcases Nat.lt_or_ge (s.top.position + room) bs.length with h | h
      · simp only [Sink.widen, drainBytes_of_le h', List.length_drop]
        omega
      · simp [drainBytes_of_le h] at hshort

/-- A byte string that may be absent can be written in parts. -/
theorem Continuable.writeBytes (value : Option Bytes) :
    Continuable FrameStack.SameMessage (writeBytes value) := by
  refine .writeSized _ ?_
  cases value with
  | none => exact Continuable.done.mono fun _ _ h => h.sameField
  | some bs => exact .drainBytes bs

/-! ## Arrays -/

section

variable {A : Type} {write : A → Sink → Writing}

/-- The sink at the next element of an array. -/
def Sink.nextElement (sink : Sink) : Sink :=
  sink.modifyTop fun f => { f with position := f.position + 1 }

/-- Going on to the next element is not progress in the field list. -/
theorem Sink.nextElement_sameField (sink : Sink) : sink.stack.SameField sink.nextElement.stack :=
  .of_top rfl ⟨sink.stack.top.messageStarted, sink.stack.top.position + 1, rfl⟩

/-- The position moves on with every element that is complete, so an array that was
suspended goes on with the element at its position. -/
theorem writeEach_widen (h : ∀ item, Continuable FrameStack.SameFrame (write item))
    (items left : List A) (sink : Sink) (extra : Nat)
    (hleft : items.drop sink.stack.top.position = left) :
    writeEach write left (sink.widen extra) = (writeEach write left sink).resume
      (fun sink => writeEach write (items.drop sink.stack.top.position) sink) extra := by
  induction left generalizing sink with
  | nil => rfl
  | cons item rest ih =>
    have hkeeps := (h item).keeps sink
    simp only [writeEach, (h item).widen]
    rcases hw : write item sink with ⟨_ | _ | e, emitted, sink'⟩
    · rw [hw] at hkeeps
      have htop : sink'.stack.top = sink.stack.top := hkeeps.top
      rw [Writing.resume, Writing.andThen_advance, Writing.andThen_advance, Writing.after_resume]
      have hrest : items.drop (sink'.stack.top.position + 1) = rest := by
        rw [htop, ← List.tail_drop, hleft, List.tail_cons]
      exact congrArg (Writing.after emitted) (ih sink'.nextElement hrest)
    · rw [hw] at hkeeps
      have htop : sink'.stack.top = sink.stack.top := hkeeps.top
      rw [Writing.resume_andThen (by simp)]
      refine Writing.resume_congr fun _ => ?_
      show _ = writeEach write (items.drop sink'.stack.top.position) (sink'.widen extra)
      rw [htop, hleft]
      rfl
    · rfl

/-- Elements leave the rest of the enclosing message alone. -/
theorem writeEach_keeps (h : ∀ item, Continuable FrameStack.SameFrame (write item))
    (items : List A) (sink : Sink) :
    sink.stack.SameField (writeEach write items sink).sink.stack := by
  induction items generalizing sink with
  | nil => exact .refl _
  | cons item rest ih =>
    have hkeeps := ((h item).keeps sink).sameField
    simp only [writeEach, Writing.andThen]
    split
    · have hnext := (write item sink).sink.nextElement_sameField
      exact hkeeps.trans (hnext.trans (ih (write item sink).sink.nextElement))
    · exact hkeeps

/-- Elements take the room that each of them takes. -/
theorem writeEach_room (h : ∀ item, Continuable FrameStack.SameFrame (write item))
    (items : List A) (sink : Sink) :
    (writeEach write items sink).emitted.length + (writeEach write items sink).sink.room =
      sink.room := by
  induction items generalizing sink with
  | nil => exact Nat.zero_add _
  | cons item rest ih => exact Writing.room_andThen ((h item).room sink) fun sink => ih _

/-- Elements run out only if there is too little room for all of them. -/
theorem writeEach_tight (h : ∀ item, Continuable FrameStack.SameFrame (write item))
    (items : List A) (sink : Sink) (extra : Nat)
    (hshort : (writeEach write items sink).progress = .incomplete)
    (hwide : (writeEach write items (sink.widen extra)).progress = .advance) :
    sink.room < (writeEach write items (sink.widen extra)).emitted.length := by
  induction items generalizing sink extra with
  | nil => simp [writeEach, Writing.done] at hshort
  | cons item rest ih =>
    exact (h item).tight_andThen
      (fun sink extra => ih sink.nextElement extra) sink extra hshort hwide

/-- An array can be written in parts if its elements can. -/
theorem Continuable.writeArray (h : ∀ item, Continuable FrameStack.SameFrame (write item))
    (value : Option (List A)) : Continuable FrameStack.SameMessage (writeArray write value) := by
  refine .writeSized _ ?_
  cases value with
  | none => exact Continuable.done.mono fun _ _ h => h.sameField
  | some items =>
    exact ⟨fun sink extra => writeEach_widen h items _ sink extra rfl,
      fun sink => writeEach_keeps h _ sink, fun sink => writeEach_room h _ sink,
      fun sink extra => writeEach_tight h _ sink extra⟩

end

/-! ## Nested messages -/

section

variable {R : Type} {write : R → Sink → Writing}

/-- A nested message that can be written in parts can be written in parts one level up. -/
theorem Continuable.writeNested (message : R)
    (h : Continuable FrameStack.SameOuter (write message)) :
    Continuable FrameStack.SameFrame (writeNested write message) := by
  refine ⟨fun sink extra => ?_, fun sink => ?_, fun sink => h.room ⟨sink.stack.enter, sink.room⟩,
    fun sink extra => h.tight ⟨sink.stack.enter, sink.room⟩ extra⟩
  · have hwiden := h.widen ⟨sink.stack.enter, sink.room⟩ extra
    have hkeeps := h.keeps ⟨sink.stack.enter, sink.room⟩
    simp only [Sink.widen] at hwiden
    simp only [Wire.writeNested, Sink.widen, hwiden]
    rcases hw : write message ⟨sink.stack.enter, sink.room⟩ with ⟨_ | _ | e, emitted, sink'⟩
    · rfl
    · rw [hw] at hkeeps
      have houter : sink'.stack.outer = sink.stack.top :: sink.stack.outer := hkeeps
      simp only [Writing.resume, Writing.after, Progress.isAdvance_incomplete, Wire.writeNested,
        Sink.widen, FrameStack.enter_leave houter]
    · rfl
  · obtain ⟨houter, htop⟩ :=
      FrameStack.leave_sameFrame (h.keeps ⟨sink.stack.enter, sink.room⟩)
        (write message ⟨sink.stack.enter, sink.room⟩).progress.isAdvance
    exact ⟨houter, htop⟩

/-- A message that may be absent can be written in parts. -/
theorem Continuable.writeMessage (h : ∀ message, Continuable FrameStack.SameOuter (write message))
    (value : Option R) : Continuable FrameStack.SameFrame (writeMessage write value) := by
  cases value with
  | none => exact .put nullBytes
  | some message => exact .writeNested message (h message)

/-- An array of messages can be written in parts. -/
theorem Continuable.writeMessages
    (h : ∀ message, Continuable FrameStack.SameOuter (write message)) (value : Option (List R)) :
    Continuable FrameStack.SameMessage (writeMessages write value) :=
  .writeArray (fun message => .writeNested message (h message)) value

end

/-! ## What is left to write -/

/-- A call from the given frames would complete its unit with the octets `rest`, if only it
were given enough room. -/
def Owes (write : Sink → Writing) (s : FrameStack) (rest : Bytes) : Prop :=
  ∃ room, (write ⟨s, room⟩).progress = .advance ∧ (write ⟨s, room⟩).emitted = rest

section

variable {keeps : FrameStack → FrameStack → Prop} {write : Sink → Writing} {s : FrameStack}
  {rest : Bytes}

/-- Any larger room is enough as well. -/
theorem Owes.more (h : Continuable keeps write) (howes : Owes write s rest) (room : Nat) :
    ∃ extra, (write ⟨s, room + extra⟩).progress = .advance ∧
      (write ⟨s, room + extra⟩).emitted = rest := by
  obtain ⟨enough, hadvance, hemitted⟩ := howes
  refine ⟨enough, ?_⟩
  have hwiden := h.widen ⟨s, enough⟩ room
  rcases hw : write ⟨s, enough⟩ with ⟨_ | _ | e, emitted, sink⟩
  · rw [hw] at hwiden hemitted
    have hsink : (⟨s, room + enough⟩ : Sink) = Sink.widen ⟨s, enough⟩ room := by
      rw [Sink.widen, Nat.add_comm]
    rw [hsink, hwiden]
    exact ⟨rfl, hemitted⟩
  · simp [hw] at hadvance
  · simp [hw] at hadvance

/-- A call emits the first part of what is left. It completes its unit if it emits all of
it, and otherwise it leaves the other part. -/
theorem Owes.step (h : Continuable keeps write) (howes : Owes write s rest) (room : Nat) :
    let w := write ⟨s, room⟩
    (w.progress = .advance ∧ w.emitted = rest) ∨
      (w.progress = .incomplete ∧
        ∃ rest', w.emitted ++ rest' = rest ∧ rest' ≠ [] ∧ Owes write w.sink.stack rest') := by
  obtain ⟨extra, hadvance, hemitted⟩ := howes.more h room
  have hwiden := h.widen ⟨s, room⟩ extra
  have hroom := h.room ⟨s, room⟩
  have htight := h.tight ⟨s, room⟩ extra
  simp only [Sink.widen] at hwiden htight
  rcases hw : write ⟨s, room⟩ with ⟨_ | _ | e, emitted, sink⟩
  · left
    rw [hwiden, hw] at hemitted
    exact ⟨rfl, hemitted⟩
  · right
    have hlt := htight (by rw [hw]) hadvance
    rw [hwiden, hw] at hadvance hemitted hlt
    rw [hw] at hroom
    simp only [Writing.resume, Writing.after_progress, Writing.after_emitted, List.length_append]
      at hadvance hemitted hlt hroom
    refine ⟨rfl, (write (sink.widen extra)).emitted, hemitted, fun hnil => ?_, ?_⟩
    · rw [hnil] at hlt
      simp only [List.length_nil] at hlt
      omega
    · exact ⟨sink.room + extra, hadvance, rfl⟩
  · rw [hwiden, hw] at hadvance
    simp [Writing.resume] at hadvance

/-- What is left behind the octets of a call that ran out is left behind them before it. -/
theorem Owes.before (h : Continuable keeps write) {room : Nat}
    (hshort : (write ⟨s, room⟩).progress = .incomplete)
    (howes : Owes write (write ⟨s, room⟩).sink.stack rest) :
    Owes write s ((write ⟨s, room⟩).emitted ++ rest) := by
  obtain ⟨extra, hadvance, hemitted⟩ := howes.more h (write ⟨s, room⟩).sink.room
  have hwiden := h.widen ⟨s, room⟩ extra
  refine ⟨room + extra, ?_⟩
  rw [show (⟨s, room + extra⟩ : Sink) = Sink.widen ⟨s, room⟩ extra from rfl, hwiden]
  rcases hw : write ⟨s, room⟩ with ⟨_ | _ | e, emitted, sink⟩ <;>
    rw [hw] at hshort hadvance hemitted
  · cases hshort
  · refine ⟨hadvance, ?_⟩
    rw [← hemitted]
    rfl
  · cases hshort

/-- As much room as there are octets left is enough. -/
theorem Owes.of_le (h : Continuable keeps write) (howes : Owes write s rest) {room : Nat}
    (hroom : rest.length ≤ room) :
    (write ⟨s, room⟩).progress = .advance ∧ (write ⟨s, room⟩).emitted = rest := by
  rcases howes.step h room with hdone | ⟨hshort, -⟩
  · exact hdone
  · obtain ⟨extra, hadvance, hemitted⟩ := howes.more h room
    have hlt := h.tight ⟨s, room⟩ extra hshort hadvance
    rw [show Sink.widen ⟨s, room⟩ extra = ⟨s, room + extra⟩ from rfl, hemitted] at hlt
    exact absurd hroom (Nat.not_le.mpr hlt)

end

end Enlistment.Wire
