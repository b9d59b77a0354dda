/-!
# Frames

A reader or writer keeps one frame of progress for every depth of nesting. A
nested message that is suspended leaves its frame behind, and the next call picks
it up at the same field and the same position inside that field.
-/

namespace Enlistment.Wire

/-- Progress within the message of one depth. -/
structure Frame where
  /-- The number of fields already processed. -/
  state : Nat := 0
  headerDone : Bool := false
  flags : UInt8 := 0
  /-- The length of the current field is known. -/
  fieldStarted : Bool := false
  /-- The current nested message has been announced. -/
  messageStarted : Bool := false
  /-- Octets or elements of the current field already processed. -/
  position : Nat := 0
  /-- The declared length of the current field. -/
  length : Nat := 0
  deriving DecidableEq, Repr, Inhabited

/-- The frame at the start of the next field. -/
def Frame.nextField (f : Frame) : Frame :=
  { state := f.state + 1, headerDone := f.headerDone, flags := f.flags }

/-- The frames of all depths, seen from the current one. -/
structure FrameStack where
  /-- Frames of the enclosing messages, the nearest first. -/
  outer : List Frame := []
  top : Frame := {}
  /-- Frames of the nested messages, the nearest first. -/
  deeper : List Frame := []
  deriving DecidableEq, Repr, Inhabited

namespace FrameStack

/-- The depth of nesting. -/
def depth (s : FrameStack) : Nat := s.outer.length

/-- Changes the frame of the current depth. -/
def modifyTop (s : FrameStack) (f : Frame → Frame) : FrameStack :=
  { s with top := f s.top }

/-- Goes on to the next field of the current message. -/
def nextField (s : FrameStack) : FrameStack := s.modifyTop Frame.nextField

/-- Goes on to the next field at the word of a caller, who may do so more often than a
message has fields. The number of fields is counted in one octet. -/
def countField (s : FrameStack) : FrameStack :=
  s.nextField.modifyTop fun f => { f with state := f.state % 256 }

/-- Marks the header of the current message as processed. -/
def headerWritten (s : FrameStack) : FrameStack :=
  s.modifyTop fun f => { f with headerDone := true }

/-- Goes down into a nested message. -/
def enter (s : FrameStack) : FrameStack :=
  { outer := s.top :: s.outer, top := s.deeper.headD {}, deeper := s.deeper.tail }

/-- Comes back from a nested message. Its frame starts afresh if it is finished
and is kept otherwise. -/
def leave (s : FrameStack) (finished : Bool) : FrameStack :=
  match s.outer with
  | [] => s
  | f :: rest =>
    { outer := rest, top := f, deeper := (if finished then {} else s.top) :: s.deeper }

end FrameStack

end Enlistment.Wire
