import Enlistment.Wire.Frame
import Enlistment.Wire.Progress

/-!
# What a call leaves of the frames

A call works at the current depth and below. It leaves the enclosing messages
alone, and the smaller the unit it works on, the more of the current frame it
leaves alone as well.
-/

namespace Enlistment.Wire

/-- A unit that is complete advances. -/
@[simp] theorem Progress.isAdvance_advance : advance.isAdvance = true := rfl

/-- A unit that is not complete does not advance. -/
@[simp] theorem Progress.isAdvance_incomplete : incomplete.isAdvance = false := rfl

/-- A unit that fails does not advance. -/
@[simp] theorem Progress.isAdvance_failed (e : CodecError) : (failed e).isAdvance = false := rfl

namespace FrameStack

/-- A call inside a nested message leaves the enclosing messages alone. -/
def SameOuter (s t : FrameStack) : Prop := t.outer = s.outer

/-- A call on one field leaves the enclosing messages and the place in the message alone. -/
structure SameMessage (s t : FrameStack) : Prop where
  outer : t.outer = s.outer
  state : t.top.state = s.top.state
  headerDone : t.top.headerDone = s.top.headerDone
  flags : t.top.flags = s.top.flags

/-- A call on the contents of a field also keeps what is known about its length. -/
structure SameField (s t : FrameStack) : Prop extends s.SameMessage t where
  fieldStarted : t.top.fieldStarted = s.top.fieldStarted
  length : t.top.length = s.top.length

/-- A call on several fields may move on in the message. -/
structure Ahead (s t : FrameStack) : Prop where
  outer : t.outer = s.outer
  state : s.top.state ≤ t.top.state
  headerDone : t.top.headerDone = s.top.headerDone
  flags : t.top.flags = s.top.flags

/-- A call below the current depth leaves the current frame alone. -/
structure SameFrame (s t : FrameStack) : Prop where
  outer : t.outer = s.outer
  top : t.top = s.top

/-- Nothing is suspended below the current depth. -/
def Fresh (s : FrameStack) : Prop := ∀ f ∈ s.deeper, f = {}

/-- The frames at the start of a message. -/
structure AtMessage (s : FrameStack) : Prop where
  top : s.top = {}
  fresh : s.Fresh

/-- Without frames a message starts. -/
theorem AtMessage.empty : AtMessage {} := ⟨rfl, fun f hf => by simp at hf⟩

/-- The frames at the start of a field. -/
structure AtField (s : FrameStack) : Prop where
  fieldStarted : s.top.fieldStarted = false
  messageStarted : s.top.messageStarted = false
  position : s.top.position = 0
  fresh : s.Fresh

/-- The frames at the start of the contents of a field, behind their length. -/
structure AtContents (s : FrameStack) : Prop where
  messageStarted : s.top.messageStarted = false
  position : s.top.position = 0
  fresh : s.Fresh

/-- The frames between two elements of an array of messages. -/
structure Between (s : FrameStack) : Prop where
  messageStarted : s.top.messageStarted = false
  fresh : s.Fresh

/-- A call that does nothing leaves the frames alone. -/
theorem SameField.refl (s : FrameStack) : s.SameField s := ⟨⟨rfl, rfl, rfl, rfl⟩, rfl, rfl⟩

/-- A call below the current depth leaves the contents of the current field alone. -/
theorem SameFrame.sameField {s t : FrameStack} (h : s.SameFrame t) : s.SameField t :=
  ⟨⟨h.outer, by rw [h.top], by rw [h.top], by rw [h.top]⟩, by rw [h.top], by rw [h.top]⟩

/-- Two calls in a row on the contents of a field leave alone what each of them does. -/
theorem SameField.trans {s t u : FrameStack} (h : s.SameField t) (h' : t.SameField u) :
    s.SameField u :=
  ⟨⟨h'.outer.trans h.outer, h'.state.trans h.state, h'.headerDone.trans h.headerDone,
    h'.flags.trans h.flags⟩, h'.fieldStarted.trans h.fieldStarted, h'.length.trans h.length⟩

/-- Progress among the messages of a field is not progress in the field list. -/
theorem SameField.of_top {s t : FrameStack} (houter : t.outer = s.outer)
    (htop : ∃ started position,
      t.top = { s.top with messageStarted := started, position := position }) :
    s.SameField t := by
  obtain ⟨started, position, htop⟩ := htop
  exact ⟨⟨houter, by rw [htop], by rw [htop], by rw [htop]⟩, by rw [htop], by rw [htop]⟩

/-- A call that does nothing stays where it is. -/
theorem Ahead.refl (s : FrameStack) : s.Ahead s := ⟨rfl, Nat.le_refl _, rfl, rfl⟩

/-- Two calls in a row move on as far as both of them. -/
theorem Ahead.trans {s t u : FrameStack} (h : s.Ahead t) (h' : t.Ahead u) : s.Ahead u :=
  ⟨h'.outer.trans h.outer, Nat.le_trans h.state h'.state, h'.headerDone.trans h.headerDone,
    h'.flags.trans h.flags⟩

/-- A call on one field stays at it. -/
theorem SameMessage.ahead {s t : FrameStack} (h : s.SameMessage t) : s.Ahead t :=
  ⟨h.outer, Nat.le_of_eq h.state.symm, h.headerDone, h.flags⟩

/-- Going on to the next field moves on. -/
theorem Ahead.nextField (s : FrameStack) : s.Ahead s.nextField :=
  ⟨rfl, Nat.le_succ _, rfl, rfl⟩

/-- A suspended message is entered again where it was left. -/
theorem enter_leave {s : FrameStack} {f : Frame} {rest : List Frame} (h : s.outer = f :: rest) :
    (s.leave false).enter = s := by
  cases s
  simp only at h
  subst h
  rfl

/-- Coming back from a nested message leads to the frame it was entered from. -/
theorem leave_sameFrame {s t : FrameStack} (h : s.enter.SameOuter t) (finished : Bool) :
    (t.leave finished).outer = s.outer ∧ (t.leave finished).top = s.top := by
  have houter : t.outer = s.top :: s.outer := h
  simp [leave, houter]

/-- The next field starts afresh. -/
theorem Fresh.nextField {s : FrameStack} (h : s.Fresh) : s.nextField.AtField :=
  ⟨rfl, rfl, rfl, h⟩

/-- A nested message starts afresh. -/
theorem Fresh.enter {s : FrameStack} (h : s.Fresh) : s.enter.AtMessage := by
  cases hdeeper : s.deeper with
  | nil =>
    refine ⟨by simp [FrameStack.enter, hdeeper], fun f hf => ?_⟩
    simp [FrameStack.enter, hdeeper] at hf
  | cons f rest =>
    refine ⟨?_, fun g hg => h g ?_⟩
    · have hf : f = {} := h f (by simp [hdeeper])
      simp [FrameStack.enter, hdeeper, hf]
    · simp only [FrameStack.enter, hdeeper, List.tail_cons] at hg
      simp [hdeeper, hg]

/-- A nested message that is finished leaves nothing suspended. -/
theorem Fresh.leave {s : FrameStack} (h : s.Fresh) : (s.leave true).Fresh := by
  unfold FrameStack.leave
  split
  · exact h
  · intro f hf
    rcases List.mem_cons.mp hf with rfl | hf
    · rfl
    · exact h f hf

end FrameStack

end Enlistment.Wire
