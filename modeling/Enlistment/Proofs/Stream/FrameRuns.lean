import Enlistment.Proofs.Stream.Receiving
import Enlistment.Proofs.Wire.ReadingDepth
import Enlistment.Proofs.Wire.WritingDepth
import Enlistment.Stream.Encoder

/-!
# Frames along a run

A run is made of the calls on one message, each of which goes on where the one before it has come
to. Between these calls a reader or writer is in no nested message, and during each of them its
frames follow the messages it is inside of. What decoders and encoders do are such runs.
-/

namespace Enlistment

open Wire

/-! ## Calls of a run -/

namespace Wire

/-- The calls of a reader on one message, with octets that are cut in any way. The last of them may
fail, and none before it has. -/
inductive ReadCall.InRun (maxLength : Nat) : ReadCall → Prop
  | first {R : Type} (layout : Layout R) (message : R) (bs : Bytes) :
      InRun maxLength ⟨layout, message, ⟨{}, bs⟩⟩
  | again {c : ReadCall} (h : InRun maxLength c)
      (hincomplete : (c.reading maxLength).progress = .incomplete) (bs : Bytes) :
      InRun maxLength (c.again maxLength bs)

/-- The calls of a writer on one message, with any room for each. It may be called again after it
has failed. -/
inductive WriteCall.InRun : WriteCall → Prop
  | first {R : Type} (layout : Layout R) (message : R) (room : Nat) :
      InRun ⟨layout, message, ⟨{}, room⟩⟩
  | again {c : WriteCall} (h : InRun c) (hstopped : c.writing.progress ≠ .advance) (room : Nat) :
      InRun (c.again room)

/-- Every call of a run starts in order, outside of any nested message. -/
theorem ReadCall.InRun.inOrder {maxLength : Nat} {c : ReadCall} (h : c.InRun maxLength) :
    c.InOrder ∧ c.source.stack.outer = [] := by
  induction h with
  | first layout message bs => exact ⟨layout.readsInOrder_of_atMessage _ message .empty, rfl⟩
  | @again c _ hincomplete bs ih =>
    obtain ⟨horder, houter⟩ := ih
    have hkeeps := (c.layout.resumable maxLength).keeps c.message c.source
    exact ⟨(Within.self.keepsFrames horder houter).suspended hincomplete bs, hkeeps.trans houter⟩

/-- Every call of a run starts in order, outside of any nested message. -/
theorem WriteCall.InRun.inOrder {c : WriteCall} (h : c.InRun) :
    c.InOrder ∧ c.sink.stack.outer = [] := by
  induction h with
  | first layout message room => exact ⟨layout.writesInOrder_of_atMessage _ message .empty, rfl⟩
  | @again c _ hstopped room ih =>
    obtain ⟨horder, houter⟩ := ih
    have hkeeps := (c.layout.continuable c.message).keeps c.sink
    exact ⟨(Within.self.keepsFrames horder houter).stopped hstopped room, hkeeps.trans houter⟩

end Wire

/-! ## Decoders and encoders -/

/-- The call that reads a draft. -/
def Draft.readCall (d : Draft) (src : Source) : ReadCall := ⟨d.type.layout, d.record, src⟩

/-- The call that writes a draft. -/
def Draft.writeCall (d : Draft) (sink : Sink) : WriteCall := ⟨d.type.layout, d.record, sink⟩

/-- Decoders that come about by feeding octets and calling for messages as long as no call fails. -/
inductive Decoder.Unfailed (accepted : List MessageType) (maxLength : Nat) : Decoder → Prop
  | fresh : Unfailed accepted maxLength { accepted, maxLength }
  | feed {d : Decoder} (bs : Bytes) (h : Unfailed accepted maxLength d) :
      Unfailed accepted maxLength (d.feed bs)
  | next {d : Decoder} (h : Unfailed accepted maxLength d) (hok : ∀ e, d.next.1 ≠ .error e) :
      Unfailed accepted maxLength d.next.2

/-- Encoders that come about by writing parts of one draft. -/
inductive Encoder.Amid (d : Draft) : Encoder → Prop
  | fresh : Amid d {}
  | part {e : Encoder} (h : Amid d e) (room : Nat) : Amid d (e.encode d room).2.2

/-- A decoder that goes on with a run, if it works on a message, and else starts one. -/
structure Decoder.Running (d : Decoder) : Prop where
  idle : d.current = none → d.stack = {}
  current : ∀ draft, d.current = some draft →
    ∀ bs, (draft.readCall ⟨d.stack, bs⟩).InRun d.maxLength

/-- What a running decoder reads is a call of a run. -/
theorem Decoder.Running.start {d : Decoder} {draft : Draft} (h : d.Running)
    (hstart : d.start = .ok (some draft)) :
    (draft.readCall ⟨d.stack, d.pending⟩).InRun d.maxLength := by
  unfold Decoder.start at hstart
  cases hcurrent : d.current with
  | some found =>
    simp only [hcurrent, Except.ok.injEq, Option.some.injEq] at hstart
    rw [← hstart]
    exact h.current found hcurrent _
  | none =>
    simp only [hcurrent] at hstart
    split at hstart
    · simp at hstart
    · split at hstart
      · simp at hstart
      · next t ht =>
        rw [h.idle hcurrent]
        obtain rfl := Option.some.inj (Except.ok.inj hstart)
        exact .first _ _ _

/-- A call that does not fail leaves a decoder running. -/
theorem Decoder.Running.next {d : Decoder} (h : d.Running) (hok : ∀ e, d.next.1 ≠ .error e) :
    d.next.2.Running := by
  cases hstart : d.start with
  | error e =>
    simp only [Decoder.next, hstart]
    exact h
  | ok m =>
    cases m with
    | none =>
      simp only [Decoder.next, hstart]
      exact h
    | some draft =>
      obtain ⟨type, record⟩ := draft
      have hcall := h.start hstart
      rw [next_of_start hstart] at hok ⊢
      simp only [Draft.read] at hok ⊢
      rcases hr : type.layout.read d.maxLength record ⟨d.stack, d.pending⟩ with
        ⟨_ | _ | e, record', src⟩ <;> rw [hr] at hok
      · exact ⟨fun _ => rfl, fun draft hdraft => by cases hdraft⟩
      · refine ⟨fun hnone => ?_, fun draft hdraft bs => ?_⟩
        · cases hnone
        · obtain rfl := Option.some.inj hdraft
          have hagain := hcall.again (congrArg Reading.progress hr) bs
          simp only [Draft.readCall, ReadCall.again, ReadCall.reading, hr] at hagain
          exact hagain
      · exact absurd rfl (hok e)

/-- A decoder that has not failed is running. -/
theorem Decoder.Unfailed.running {accepted : List MessageType} {maxLength : Nat} {d : Decoder}
    (h : d.Unfailed accepted maxLength) : d.Running := by
  induction h with
  | fresh => exact ⟨fun _ => rfl, fun draft hdraft => by cases hdraft⟩
  | feed bs _ ih => exact ⟨ih.idle, ih.current⟩
  | next _ hok ih => exact ih.next hok

/-- What an encoder writes of a draft is a call of a run. -/
theorem Encoder.Amid.inRun {d : Draft} {e : Encoder} (h : e.Amid d) (room : Nat) :
    (d.writeCall ⟨e.stack, room⟩).InRun := by
  induction h generalizing room with
  | fresh => exact .first _ _ _
  | @part e _ room' ih =>
    simp only [Encoder.encode]
    split
    · exact .first _ _ _
    · next hstopped =>
      refine .again (ih room') (fun hadvance => hstopped ?_) room
      replace hadvance : (d.write ⟨e.stack, room'⟩).progress = .advance := hadvance
      rw [hadvance]
      rfl

/-! ## Frames follow the nesting of messages -/

/-- In every run of a reader that has not failed before, and in every run of a writer, whatever the
message and wherever it is cut, frames follow the messages that a call is inside of. The depth is 0
before and after each call. Within it, the depth of every call on a nested message is the number of
the messages around it: each of them is at one of its fields, and no further in it than the field
is long. A call never starts with more of a field than was declared, nor with the progress of
another element, and a message that is complete leaves nothing in its frame and those below. -/
theorem Wire.frames_follow_nesting (maxLength : Nat) :
    (∀ c : ReadCall, c.InRun maxLength →
      c.source.stack.depth = 0 ∧ (c.reading maxLength).source.stack.depth = 0 ∧
        ∀ path e, c.Within maxLength path e → e.KeepsFrames maxLength path) ∧
    ∀ c : WriteCall, c.InRun →
      c.sink.stack.depth = 0 ∧ c.writing.sink.stack.depth = 0 ∧
        ∀ path e, c.Within path e → e.KeepsFrames path := by
  refine ⟨fun c h => ?_, fun c h => ?_⟩
  · obtain ⟨horder, houter⟩ := h.inOrder
    have hself : c.KeepsFrames maxLength [] := ReadCall.Within.self.keepsFrames horder houter
    exact ⟨hself.depth, hself.ends, fun path e he => he.keepsFrames horder houter⟩
  · obtain ⟨horder, houter⟩ := h.inOrder
    have hself : c.KeepsFrames [] := WriteCall.Within.self.keepsFrames horder houter
    exact ⟨hself.depth, hself.ends, fun path e he => he.keepsFrames horder houter⟩

/-- An invocation whose second argument is cut, as a reader and as a writer go on with it. -/
theorem Wire.frames_follow_nesting_in_argument :
    (∃ c e : ReadCall, c.InRun 16 ∧ c.Within 16 [c] e ∧ e.KeepsFrames 16 [c] ∧
      e.source.stack = ⟨[⟨0, true, 0, true, true, 1, 2⟩], ⟨0, true, 0, true, false, 0, 2⟩, []⟩) ∧
    ∃ c e : WriteCall, c.InRun ∧ c.Within [c] e ∧ e.KeepsFrames [c] ∧
      e.sink.stack = ⟨[⟨0, true, 0, true, false, 1, 0⟩], ⟨0, true, 0, true, false, 1, 0⟩, []⟩ := by
  obtain ⟨hreads, hwrites⟩ := frames_follow_nesting 16
  constructor
  · let c : ReadCall := ReadCall.again 16 ⟨invokeLayout, invokeLayout.blank, ⟨{}, [161, 0, 1, 0, 2,
      0, 2, 0, 0, 0, 89, 0, 1, 0, 1, 0, 1, 0, 0, 0, 5, 89, 0, 1, 0, 1, 0, 2, 0, 0, 0, 6]⟩⟩ [7]
    have hrun : c.InRun 16 := .again (.first _ _ _) (by decide +kernel) _
    have hstacks : ⟨[⟨0, true, 0, true, true, 1, 2⟩], ⟨0, true, 0, true, false, 0, 2⟩, []⟩ ∈
        ((c.fields 16).flatMap fun field => field.messages 16).map fun e => e.source.stack := by
      decide +kernel
    obtain ⟨e, he, hstack⟩ := List.mem_map.mp hstacks
    obtain ⟨field, hfield, hmessage⟩ := List.mem_flatMap.mp he
    have hwithin : c.Within 16 [c] e := .nested .self hfield hmessage
    exact ⟨c, e, hrun, hwithin, (hreads c hrun).2.2 _ _ hwithin, hstack⟩
  · let c : WriteCall := WriteCall.again ⟨invokeLayout, ⟨0, ⟨none, [⟨0, some [5], ()⟩,
      ⟨0, some [6, 7], ()⟩]⟩, .ofString "p", ()⟩, ⟨{}, 32⟩⟩ 1
    have hrun : c.InRun := .again (.first _ _ _) (by decide +kernel) _
    have hstacks : ⟨[⟨0, true, 0, true, false, 1, 0⟩], ⟨0, true, 0, true, false, 1, 0⟩, []⟩ ∈
        (c.fields.flatMap FieldWrite.messages).map fun e => e.sink.stack := by
      decide +kernel
    obtain ⟨e, he, hstack⟩ := List.mem_map.mp hstacks
    obtain ⟨field, hfield, hmessage⟩ := List.mem_flatMap.mp he
    have hwithin : c.Within [c] e := .nested .self hfield hmessage
    exact ⟨c, e, hrun, hwithin, (hwrites c hrun).2.2 _ _ hwithin, hstack⟩

end Enlistment
