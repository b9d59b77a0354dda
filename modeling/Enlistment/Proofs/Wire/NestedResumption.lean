import Enlistment.Proofs.Wire.Resumption

/-!
# Suspended reading of nested messages

A nested message that is suspended leaves its frame one level down and finds it
there again. An array also counts the elements that are complete, so a resumed
call knows how many are still to come.
-/

namespace Enlistment.Wire

/-! ## Nested messages -/

variable {R : Type} {create : UInt16 → Option R} {read : R → Source → Reading R}

/-- Announcing a message is not progress in the field list. -/
theorem Source.announced_sameField (src : Source) :
    src.stack.SameField (src.modifyTop fun f => { f with messageStarted := true }).stack :=
  .of_top rfl ⟨true, src.stack.top.position, rfl⟩

/-- A nested message leaves the frames above it alone. -/
theorem readNested_stack (h : Resumable FrameStack.SameOuter read) (message : R) (src : Source) :
    (readNested read message src).source.stack.outer = src.stack.outer ∧
      (readNested read message src).source.stack.top = src.stack.top :=
  FrameStack.leave_sameFrame (h.keeps message { src with stack := src.stack.enter }) _

/-- A nested message that can be read in parts can be read in parts one level up. -/
theorem readNested_feed (h : Resumable FrameStack.SameOuter read) (message : R) (src : Source)
    (bs : Bytes) :
    readNested read message (src.feed bs) =
      (readNested read message src).resume (readNested read) bs := by
  have hfeed := h.feed message { src with stack := src.stack.enter } bs
  have hkeeps := h.keeps message { src with stack := src.stack.enter }
  rw [show (Source.feed { src with stack := src.stack.enter } bs) =
    { src.feed bs with stack := (src.feed bs).stack.enter } from rfl] at hfeed
  simp only [readNested, hfeed]
  rcases hr : read message { src with stack := src.stack.enter } with ⟨_ | _ | e, message', src'⟩
  · rfl
  · rw [hr] at hkeeps
    have houter : src'.stack.outer = src.stack.top :: src.stack.outer := hkeeps
    simp only [Reading.resume, Progress.isAdvance_incomplete, readNested, Source.feed,
      FrameStack.enter_leave houter]
  · rfl

/-- A nested message only takes octets away. -/
theorem readNested_length_le (h : Resumable FrameStack.SameOuter read) (message : R)
    (src : Source) : (readNested read message src).source.input.length ≤ src.input.length :=
  h.length_le message { src with stack := src.stack.enter }

/-- A message that has been announced is resumed behind its announcement. -/
theorem resumeMessage_feed (h : Resumable FrameStack.SameOuter read) (slot : Option R)
    (src : Source) (hstarted : src.stack.top.messageStarted = true) (bs : Bytes) :
    resumeMessage read slot (src.feed bs) =
      (resumeMessage read slot src).resume (readMessage create read) bs := by
  cases slot with
  | none => rfl
  | some message =>
    have hstack := readNested_stack h message src
    simp only [resumeMessage, readNested_feed h]
    rcases hr : readNested read message src with ⟨_ | _ | e, message', src'⟩
    · rfl
    · rw [hr] at hstack
      have hstarted' : src'.stack.top.messageStarted = true := by rw [hstack.2, hstarted]
      simp only [Reading.resume, Progress.isAdvance_incomplete, Bool.false_eq_true, if_false,
        readMessage, Source.feed_stack, hstarted', if_true]
      rfl
    · rfl

/-- An announced message leaves the rest of the enclosing one alone. -/
theorem resumeMessage_keeps (h : Resumable FrameStack.SameOuter read) (slot : Option R)
    (src : Source) : src.stack.SameField (resumeMessage read slot src).source.stack := by
  cases slot with
  | none => exact .refl _
  | some message =>
    obtain ⟨houter, htop⟩ := readNested_stack h message src
    simp only [resumeMessage]
    split
    · refine .of_top houter ⟨false, src.stack.top.position, ?_⟩
      simp only [Source.modifyTop, FrameStack.modifyTop, htop]
    · exact .of_top houter ⟨_, _, htop⟩

/-- An announced message only takes octets away. -/
theorem resumeMessage_length_le (h : Resumable FrameStack.SameOuter read) (slot : Option R)
    (src : Source) :
    (resumeMessage read slot src).source.input.length ≤ src.input.length := by
  cases slot with
  | none => exact Nat.le_refl _
  | some message =>
    have hle := readNested_length_le h message src
    simp only [resumeMessage]
    split <;> exact hle

/-- A message that may be absent can be read in parts. -/
theorem Resumable.readMessage (h : Resumable FrameStack.SameOuter read) :
    Resumable FrameStack.SameField (readMessage create read) := by
  refine ⟨fun slot src bs => ?_, fun slot src => ?_, fun slot src => ?_⟩
  · by_cases hstarted : src.stack.top.messageStarted = true
    · have hresume : _ = Reading.resume (Wire.readMessage create read) bs _ :=
        resumeMessage_feed h slot src hstarted bs
      simp only [Wire.readMessage, Source.feed_stack, hstarted, if_true, hresume]
    · by_cases hshort : src.input.length < 2
      · simp only [Wire.readMessage, hstarted, hshort, if_true, Bool.false_eq_true, if_false,
          Reading.resume]
      · obtain ⟨hshort', htake, hskip⟩ := Source.feed_at_hand hshort bs
        simp only [Wire.readMessage, Source.feed_stack, if_neg hstarted, if_neg hshort,
          if_neg hshort', htake, hskip]
        split
        · rfl
        · cases create (uint16Of (src.input.take 2)) with
          | none => rfl
          | some message =>
            exact resumeMessage_feed h (some message)
              (src.modifyTop fun f => { f with messageStarted := true }) rfl bs
  · unfold Wire.readMessage
    split
    · exact resumeMessage_keeps h slot src
    · split
      · exact .refl _
      · dsimp only
        split
        · exact .refl _
        · split
          · exact .refl _
          · next message _ =>
            exact .trans (src.announced_sameField) (resumeMessage_keeps h (some message) _)
  · unfold Wire.readMessage
    have hskip : (src.skip 2).input.length ≤ src.input.length := by simp [Source.skip]
    split
    · exact resumeMessage_length_le h slot src
    · split
      · exact Nat.le_refl _
      · dsimp only
        split
        · exact hskip
        · split
          · exact Nat.le_refl _
          · next message _ =>
            exact resumeMessage_length_le h (some message)
              (src.modifyTop fun f => { f with messageStarted := true })

/-- A call on a message that is there leaves one there unless it finds a null. -/
theorem readMessage_incomplete {message : R} {slot : Option R} {src src' : Source}
    (h : readMessage create read (some message) src = ⟨.incomplete, slot, src'⟩) :
    ∃ message', slot = some message' := by
  have hresume : ∀ m src, resumeMessage read (some m) src = ⟨.incomplete, slot, src'⟩ →
      ∃ m', slot = some m' := fun m src hm => ⟨_, (congrArg Reading.slot hm).symm⟩
  unfold readMessage at h
  split at h
  · exact hresume message src h
  · split at h
    · exact ⟨message, (congrArg Reading.slot h).symm⟩
    · dsimp only at h
      split at h
      · simp at h
      · split at h
        · simp at h
        · exact hresume _ _ h

/-- What has come of a message that must be there. -/
def concludeRequired (blank : R) (field : String) : Progress → Option R → Progress × R
  | .failed e, _ => (.failed e, blank)
  | .advance, none => (.failed (.invalidPayload (.nullField field)), blank)
  | progress, message => (progress, message.getD blank)

/-- A message that must be there can be read in parts. -/
theorem Resumable.readRequired (h : Resumable FrameStack.SameOuter read) (blank : R)
    (field : String) : Resumable FrameStack.SameField (readRequired create blank read field) := by
  have hmessage : Resumable FrameStack.SameField (Wire.readMessage create read) := .readMessage h
  have heq : Wire.readRequired create blank read field = fun slot src =>
      (Wire.readMessage create read (some slot) src).conclude (concludeRequired blank field) := by
    funext slot src
    unfold Wire.readRequired Reading.conclude
    rcases Wire.readMessage create read (some slot) src with ⟨_ | _ | e, _ | message, src'⟩ <;> rfl
  rw [heq]
  refine hmessage.conclude some (fun _ => concludeRequired blank field) (fun slot message => ?_)
    (fun slot e message => by simp [concludeRequired]) fun slot src message src' hr => ?_
  · cases message <;> simp [concludeRequired]
  · obtain ⟨message', rfl⟩ := readMessage_incomplete hr
    exact ⟨rfl, rfl, rfl⟩

/-! ## Arrays of messages -/

/-- An element that has been announced is resumed behind its announcement. -/
theorem resumeElement_feed (h : Resumable FrameStack.SameOuter read) (items : List R)
    (src : Source) (hstarted : src.stack.top.messageStarted = true) (bs : Bytes) :
    resumeElement read items (src.feed bs) =
      (resumeElement read items src).resume (readElement create read) bs := by
  unfold resumeElement
  cases hlast : items.getLast? with
  | none => rfl
  | some item =>
    have hstack := readNested_stack h item src
    simp only [readNested_feed h]
    rcases hr : readNested read item src with ⟨_ | _ | e, item', src'⟩
    · rfl
    · rw [hr] at hstack
      have hstarted' : src'.stack.top.messageStarted = true := by rw [hstack.2, hstarted]
      simp only [Reading.resume, Progress.isAdvance_incomplete, Bool.false_eq_true, if_false,
        readElement, Source.feed_stack, hstarted', if_true, resumeElement,
        List.getLast?_concat, List.dropLast_concat]
      rfl
    · rfl

/-- An element that is completed moves the position in the array on by one. -/
theorem resumeElement_stack (h : Resumable FrameStack.SameOuter read) (items : List R)
    (src : Source) :
    let r := resumeElement read items src
    src.stack.SameField r.source.stack ∧
      r.source.stack.top.position =
        src.stack.top.position + (if r.progress.isAdvance then 1 else 0) := by
  unfold resumeElement
  cases items.getLast? with
  | none => exact ⟨.refl _, rfl⟩
  | some item =>
    obtain ⟨houter, htop⟩ := readNested_stack h item src
    dsimp only
    split
    · refine ⟨.of_top houter ⟨false, src.stack.top.position + 1, ?_⟩, ?_⟩ <;>
        simp only [Source.modifyTop, FrameStack.modifyTop, htop]
    · exact ⟨.of_top houter ⟨_, _, htop⟩, by rw [htop]; rfl⟩

/-- An element only takes octets away. -/
theorem resumeElement_length_le (h : Resumable FrameStack.SameOuter read) (items : List R)
    (src : Source) :
    (resumeElement read items src).source.input.length ≤ src.input.length := by
  unfold resumeElement
  cases items.getLast? with
  | none => exact Nat.le_refl _
  | some item =>
    have hle := readNested_length_le h item src
    dsimp only
    split <;> exact hle

/-- An element can be read in parts. -/
theorem Resumable.readElement (h : Resumable FrameStack.SameOuter read) :
    Resumable FrameStack.SameField (readElement create read) := by
  refine ⟨fun items src bs => ?_, fun items src => ?_, fun items src => ?_⟩
  · by_cases hstarted : src.stack.top.messageStarted = true
    · have hresume : _ = Reading.resume (Wire.readElement create read) bs _ :=
        resumeElement_feed h items src hstarted bs
      simp only [Wire.readElement, Source.feed_stack, hstarted, if_true, hresume]
    · by_cases hshort : src.input.length < 2
      · simp only [Wire.readElement, hstarted, hshort, if_true, Bool.false_eq_true, if_false,
          Reading.resume]
      · obtain ⟨hshort', htake, -⟩ := Source.feed_at_hand hshort bs
        simp only [Wire.readElement, Source.feed_stack, if_neg hstarted, if_neg hshort,
          if_neg hshort', htake]
        split
        · rfl
        · cases create (uint16Of (src.input.take 2)) with
          | none => rfl
          | some item =>
            exact resumeElement_feed h (items ++ [item])
              (src.modifyTop fun f => { f with messageStarted := true }) rfl bs
  · unfold Wire.readElement
    split
    · exact (resumeElement_stack h items src).1
    · split
      · exact .refl _
      · dsimp only
        split
        · exact .refl _
        · split
          · exact .refl _
          · exact .trans src.announced_sameField (resumeElement_stack h _ _).1
  · unfold Wire.readElement
    split
    · exact resumeElement_length_le h items src
    · split
      · exact Nat.le_refl _
      · dsimp only
        split
        · exact Nat.le_refl _
        · split
          · exact Nat.le_refl _
          · next item _ =>
            exact resumeElement_length_le h (items ++ [item])
              (src.modifyTop fun f => { f with messageStarted := true })

/-- The position in an array counts the elements that are complete. -/
theorem readElement_position (create : UInt16 → Option R)
    (h : Resumable FrameStack.SameOuter read) (items : List R) (src : Source) :
    let r := readElement create read items src
    r.source.stack.top.position =
      src.stack.top.position + (if r.progress.isAdvance then 1 else 0) := by
  unfold readElement
  split
  · exact (resumeElement_stack h items src).2
  · split
    · rfl
    · dsimp only
      split
      · rfl
      · split
        · rfl
        · exact (resumeElement_stack h _ _).2

/-- The number of elements still to be read follows from the position in the array. -/
theorem readElements_feed (h : Resumable FrameStack.SameOuter read) (length : Nat) (bs : Bytes)
    (count : Nat) (items : List R) (src : Source)
    (hcount : count = length - src.stack.top.position) :
    readElements create read count items (src.feed bs) =
      (readElements create read count items src).resume (fun items src =>
        readElements create read (length - src.stack.top.position) items src) bs := by
  induction count generalizing items src with
  | zero => rfl
  | succ count ih =>
    have hposition := readElement_position create h items src
    simp only [readElements, (Resumable.readElement h).feed]
    rcases hr : readElement create read items src with ⟨_ | _ | e, items', src'⟩
    · rw [hr] at hposition
      simp only [Progress.isAdvance_advance, if_true] at hposition
      exact ih items' src' (by omega)
    · rw [hr] at hposition
      simp only [Progress.isAdvance_incomplete, Bool.false_eq_true, if_false, Nat.add_zero]
        at hposition
      simp only [Reading.resume, Progress.isAdvance_incomplete, Bool.false_eq_true, if_false,
        Source.feed_stack, hposition, ← hcount, readElements]
      rfl
    · rfl

/-- Reading elements leaves the rest of the enclosing message alone. -/
theorem readElements_keeps (h : Resumable FrameStack.SameOuter read) (count : Nat)
    (items : List R) (src : Source) :
    src.stack.SameField (readElements create read count items src).source.stack ∧
      (readElements create read count items src).source.input.length ≤ src.input.length := by
  induction count generalizing items src with
  | zero => exact ⟨.refl _, Nat.le_refl _⟩
  | succ count ih =>
    have helement : Resumable FrameStack.SameField (Wire.readElement create read) :=
      .readElement h
    have hkeeps := helement.keeps items src
    have hle := helement.length_le items src
    simp only [readElements]
    split
    · obtain ⟨hkeeps', hle'⟩ := ih (Wire.readElement create read items src).slot
        (Wire.readElement create read items src).source
      exact ⟨hkeeps.trans hkeeps', Nat.le_trans hle' hle⟩
    · exact ⟨hkeeps, hle⟩

/-- An array of messages can be read in parts. -/
theorem Resumable.readMessages (h : Resumable FrameStack.SameOuter read) (maxLength : Nat) :
    Resumable FrameStack.SameMessage (readMessages maxLength create read) := by
  refine .readSized (fun length => ⟨fun items src bs => ?_, fun items src => ?_,
    fun items src => ?_⟩) maxLength _ _
  · exact readElements_feed h length bs _ items src rfl
  · exact (readElements_keeps h _ items src).1
  · exact (readElements_keeps h _ items src).2

end Enlistment.Wire
