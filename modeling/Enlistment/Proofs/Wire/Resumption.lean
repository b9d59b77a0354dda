import Enlistment.Proofs.Wire.Frames
import Enlistment.Wire.Read

/-!
# Suspended reading

A call that runs out of octets and is made again with more of them must come to
what it would have come to with all of them at hand. A reader of which this holds
is called resumable, together with what it leaves alone of the frames. This module
shows it for fixed units, byte strings, numbers and text.
-/

namespace Enlistment.Wire

/-! ## Feeding a call -/

/-- The source with more octets behind those at hand. -/
def Source.feed (src : Source) (bs : Bytes) : Source := { src with input := src.input ++ bs }

/-- A source that gets octets keeps its frames. -/
@[simp] theorem Source.feed_stack (src : Source) (bs : Bytes) :
    (src.feed bs).stack = src.stack := rfl

/-- New octets come after those that are left. -/
@[simp] theorem Source.feed_input (src : Source) (bs : Bytes) :
    (src.feed bs).input = src.input ++ bs := rfl

/-- Octets that are at hand can be taken before or after more octets have come. -/
theorem Source.feed_skip {src : Source} {count : Nat} (h : count ≤ src.input.length) (bs : Bytes) :
    (src.feed bs).skip count = (src.skip count).feed bs := by
  simp only [Source.skip, Source.feed, List.drop_append_of_le_length h]

/-- Octets of which there are enough at hand are the same when more have come. -/
theorem Source.feed_at_hand {src : Source} {count : Nat} (h : ¬ src.input.length < count)
    (bs : Bytes) :
    ¬ (src.feed bs).input.length < count ∧
      (src.feed bs).input.take count = src.input.take count ∧
      (src.feed bs).skip count = (src.skip count).feed bs := by
  have hlen : count ≤ src.input.length := Nat.not_lt.mp h
  refine ⟨?_, ?_, Source.feed_skip hlen bs⟩
  · rw [Source.feed_input, List.length_append]
    omega
  · rw [Source.feed_input, List.take_append_of_le_length hlen]

/-- The outcome of a call once more octets have come: a call that ran out is made again. -/
def Reading.resume {A : Type} (read : A → Source → Reading A) (bs : Bytes) :
    Reading A → Reading A
  | ⟨.incomplete, slot, src⟩ => read slot (src.feed bs)
  | ⟨.advance, slot, src⟩ => ⟨.advance, slot, src.feed bs⟩
  | ⟨.failed e, slot, src⟩ => ⟨.failed e, slot, src.feed bs⟩

/-- The outcome of a call that hands its slot over to a larger one. -/
def Reading.conclude {A B : Type} (f : Progress → A → Progress × B) (r : Reading A) : Reading B :=
  ⟨(f r.progress r.slot).1, (f r.progress r.slot).2, r.source⟩

/-- A call that did not run out is not made again. -/
theorem Reading.resume_of_ne {A : Type} {read : A → Source → Reading A} {bs : Bytes}
    {r : Reading A} (h : r.progress ≠ .incomplete) :
    r.resume read bs = { r with source := r.source.feed bs } := by
  rcases r with ⟨_ | _ | e, slot, src⟩
  · rfl
  · exact absurd rfl h
  · rfl

/-- A reader that makes no difference between octets that come before a call and octets
that come between two calls, and that leaves of the frames what `keeps` says. -/
structure Resumable {A : Type} (keeps : FrameStack → FrameStack → Prop)
    (read : A → Source → Reading A) : Prop where
  feed : ∀ slot src bs, read slot (src.feed bs) = (read slot src).resume read bs
  keeps : ∀ slot src, keeps src.stack (read slot src).source.stack
  length_le : ∀ slot src, (read slot src).source.input.length ≤ src.input.length

/-- A weaker promise about the frames. -/
theorem Resumable.mono {A : Type} {keeps keeps' : FrameStack → FrameStack → Prop}
    {read : A → Source → Reading A} (h : Resumable keeps read)
    (hkeeps : ∀ s t, keeps s t → keeps' s t) : Resumable keeps' read :=
  ⟨h.feed, fun slot src => hkeeps _ _ (h.keeps slot src), h.length_le⟩

/-- A reader that works on a part of its slot is resumable if that part is all a suspended
call needs to go on. -/
theorem Resumable.conclude {A B : Type} {keeps : FrameStack → FrameStack → Prop}
    {read : A → Source → Reading A} (h : Resumable keeps read) (get : B → A)
    (f : B → Progress → A → Progress × B)
    (hadvance : ∀ b a, (f b .advance a).1 ≠ .incomplete)
    (hfailed : ∀ b e a, (f b (.failed e) a).1 ≠ .incomplete)
    (hincomplete : ∀ b src a src', read (get b) src = ⟨.incomplete, a, src'⟩ →
      (f b .incomplete a).1 = .incomplete ∧ get (f b .incomplete a).2 = a ∧
        f (f b .incomplete a).2 = f b) :
    Resumable keeps fun b src => (read (get b) src).conclude (f b) := by
  refine ⟨fun b src bs => ?_, fun b src => h.keeps _ src, fun b src => h.length_le _ src⟩
  simp only [h.feed]
  rcases hr : read (get b) src with ⟨_ | _ | e, a, src'⟩
  · exact (Reading.resume_of_ne (r := Reading.conclude (f b) ⟨.advance, a, src'⟩)
      (hadvance b a)).symm
  · obtain ⟨hprogress, hget, hf⟩ := hincomplete b src a src' hr
    simp only [Reading.conclude, hprogress, Reading.resume, hget, hf]
  · exact (Reading.resume_of_ne (r := Reading.conclude (f b) ⟨.failed e, a, src'⟩)
      (hfailed b e a)).symm

/-! ## Units -/

/-- A unit of fixed width is taken once all of it has come. -/
theorem Resumable.readFixed {A : Type} (width : Nat) (decode : Bytes → A) :
    Resumable FrameStack.SameField (readFixed width decode) where
  feed slot src bs := by
    by_cases h : src.input.length < width
    · simp only [Wire.readFixed, if_pos h, Reading.resume]
    · obtain ⟨h', htake, hskip⟩ := Source.feed_at_hand h bs
      simp only [Wire.readFixed, if_neg h, if_neg h', Reading.resume, hskip, htake]
  keeps slot src := by
    unfold Wire.readFixed
    split <;> exact .refl _
  length_le slot src := by
    unfold Wire.readFixed
    split <;> simp [Source.skip]

/-- A unit of fixed width that has not come leaves its slot alone. -/
theorem readFixed_incomplete {A : Type} {width : Nat} {decode : Bytes → A} {slot a : A}
    {src src' : Source} (h : readFixed width decode slot src = ⟨.incomplete, a, src'⟩) :
    a = slot := by
  unfold readFixed at h
  split at h
  · simp only [Reading.mk.injEq, true_and] at h
    exact h.1.symm
  · simp at h

/-- An ordinal is checked once, when it has come. -/
theorem Resumable.readOrdinal (name : String) (count : Nat) (optional : Bool) :
    Resumable FrameStack.SameField (readOrdinal name count optional) := by
  have h : Resumable FrameStack.SameField readInt8 := .readFixed 1 _
  have heq : Wire.readOrdinal name count optional = fun slot src =>
      (readInt8 slot src).conclude fun progress n =>
        if progress.isAdvance && !ordinalAllowed count optional n then
          (.failed (.invalidOrdinal name n), slot)
        else (progress, n) := by
    funext slot src
    simp only [Wire.readOrdinal, Reading.conclude]
    split <;> rfl
  rw [heq]
  refine h.conclude id _ (fun slot n => ?_) (fun slot e n => ?_) fun slot src n src' hr => ?_
  · split <;> simp
  · simp [Progress.isAdvance]
  · have hn : n = slot := readFixed_incomplete hr
    subst hn
    simp [Progress.isAdvance]

/-- Goes on with the contents of a field whose length is known. -/
theorem resumeSized_feed {A : Type} {fill : Nat → A → Source → Reading A}
    (hfill : ∀ n, Resumable FrameStack.SameField (fill n)) (maxLength : Nat) (what : String)
    (empty : A) (slot : Option A) (src : Source) (hstarted : src.stack.top.fieldStarted = true)
    (bs : Bytes) :
    resumeSized what fill slot (src.feed bs) =
      (resumeSized what fill slot src).resume (readSized maxLength what empty fill) bs := by
  cases slot with
  | none => rfl
  | some a =>
    simp only [resumeSized, Source.feed_stack, (hfill _).feed]
    have hkeeps := (hfill src.stack.top.length).keeps a src
    rcases hr : fill src.stack.top.length a src with ⟨_ | _ | e, a', src'⟩
    · rfl
    · rw [hr] at hkeeps
      have hstarted' : src'.stack.top.fieldStarted = true := hkeeps.fieldStarted.trans hstarted
      have hlength : src'.stack.top.length = src.stack.top.length := hkeeps.length
      simp only [Reading.resume, Reading.map, readSized, Source.feed_stack, hstarted', if_true,
        resumeSized, hlength]
    · rfl

/-- Going on with the contents leaves the rest of the message alone. -/
theorem resumeSized_keeps {A : Type} {fill : Nat → A → Source → Reading A}
    (hfill : ∀ n, Resumable FrameStack.SameField (fill n)) (what : String) (slot : Option A)
    (src : Source) : src.stack.SameField (resumeSized what fill slot src).source.stack := by
  cases slot with
  | none => exact .refl _
  | some a => exact (hfill _).keeps a src

/-- Going on with the contents only takes octets away. -/
theorem resumeSized_length_le {A : Type} {fill : Nat → A → Source → Reading A}
    (hfill : ∀ n, Resumable FrameStack.SameField (fill n)) (what : String) (slot : Option A)
    (src : Source) :
    (resumeSized what fill slot src).source.input.length ≤ src.input.length := by
  cases slot with
  | none => exact Nat.le_refl _
  | some a => exact (hfill _).length_le a src

/-- A unit behind its length can be read in parts if its contents can. -/
theorem Resumable.readSized {A : Type} {fill : Nat → A → Source → Reading A}
    (hfill : ∀ n, Resumable FrameStack.SameField (fill n)) (maxLength : Nat) (what : String)
    (empty : A) : Resumable FrameStack.SameMessage (readSized maxLength what empty fill) := by
  refine ⟨fun slot src bs => ?_, fun slot src => ?_, fun slot src => ?_⟩
  · by_cases hstarted : src.stack.top.fieldStarted = true
    · have h := resumeSized_feed hfill maxLength what empty slot src hstarted bs
      simp only [Wire.readSized, Source.feed_stack, hstarted, if_true, h]
    · by_cases h : src.input.length < 4
      · simp only [Wire.readSized, hstarted, h, if_true, Bool.false_eq_true, if_false,
          Reading.resume]
      · obtain ⟨h', htake, hskip⟩ := Source.feed_at_hand h bs
        simp only [Wire.readSized, Source.feed_stack, if_neg hstarted, if_neg h, if_neg h', htake,
          hskip]
        cases decodeLength maxLength (int32Of (src.input.take 4)) with
        | error e => rfl
        | ok length =>
          cases length with
          | none => rfl
          | some length =>
            exact resumeSized_feed hfill maxLength what empty (some empty)
              ((src.skip 4).modifyTop fun f => { f with fieldStarted := true, length := length })
              rfl bs
  · unfold Wire.readSized
    split
    · exact (resumeSized_keeps hfill what slot src).toSameMessage
    · split
      · exact (FrameStack.SameField.refl _).toSameMessage
      · split
        · exact (FrameStack.SameField.refl _).toSameMessage
        · exact (FrameStack.SameField.refl _).toSameMessage
        · next length _ =>
          have h := resumeSized_keeps hfill what (some empty)
            ((src.skip 4).modifyTop fun f => { f with fieldStarted := true, length := length })
          exact ⟨h.outer, h.state, h.headerDone, h.flags⟩
  · unfold Wire.readSized
    have hskip : (src.skip 4).input.length ≤ src.input.length := by simp [Source.skip]
    split
    · exact resumeSized_length_le hfill what slot src
    · split
      · exact Nat.le_refl _
      · split
        · exact hskip
        · exact hskip
        · exact Nat.le_trans (resumeSized_length_le hfill what _ _) hskip

/-! ## Byte strings, numbers and text -/

/-- A byte string of which something is missing, or that is too long, takes all there is. -/
theorem fillBytes_of_missing {length : Nat} {bs : Bytes} {src : Source}
    (h : length < bs.length ∨ bs.length + src.input.length < length) :
    fillBytes length bs src = ⟨.incomplete, bs ++ src.input, { src with input := [] }⟩ := by
  have hne : ¬ (bs ++ src.input).length = length := by
    rw [List.length_append]
    omega
  rcases h with hlong | hshort
  · simp only [fillBytes, if_pos hlong, List.take_length, hne, decide_false, Progress.ofComplete,
      Bool.false_eq_true, if_false, Source.skip, List.drop_length]
  · have hlong : ¬ length < bs.length := by omega
    have htake : src.input.take (length - bs.length) = src.input :=
      List.take_of_length_le (by omega)
    have hdrop : src.input.drop (length - bs.length) = [] := List.drop_of_length_le (by omega)
    simp only [fillBytes, if_neg hlong, htake, hne, decide_false, Progress.ofComplete,
      Bool.false_eq_true, if_false, Source.skip, hdrop]

/-- A byte string whose octets are all at hand is completed. -/
theorem fillBytes_of_le {length : Nat} {bs : Bytes} {src : Source} (hbs : bs.length ≤ length)
    (h : length ≤ bs.length + src.input.length) :
    fillBytes length bs src =
      ⟨.advance, bs ++ src.input.take (length - bs.length), src.skip (length - bs.length)⟩ := by
  have hlong : ¬ length < bs.length := by omega
  have heq : (bs ++ src.input.take (length - bs.length)).length = length := by
    rw [List.length_append, List.length_take]
    omega
  simp only [fillBytes, if_neg hlong, heq, decide_true, Progress.ofComplete, if_true]

/-- The octets of a byte string can come one by one. -/
theorem Resumable.fillBytes (length : Nat) :
    Resumable FrameStack.SameField (fillBytes length) where
  feed bs src more := by
    have hbs : (bs ++ src.input).length = bs.length + src.input.length := List.length_append
    have hfed : (src.feed more).input.length = src.input.length + more.length :=
      List.length_append
    by_cases h : length < bs.length ∨ bs.length + src.input.length < length
    · rw [fillBytes_of_missing h, Reading.resume]
      by_cases h' : length < bs.length ∨ bs.length + (src.feed more).input.length < length
      · rw [fillBytes_of_missing h', fillBytes_of_missing]
        · simp [Source.feed]
        · simp only [Source.feed_input, List.nil_append]
          omega
      · rw [fillBytes_of_le (by omega) (by omega), fillBytes_of_le (by omega)]
        · have hlen : src.input.length ≤ length - bs.length := by omega
          simp [Source.feed, Source.skip, List.take_append, List.drop_append,
            List.take_of_length_le hlen, List.drop_of_length_le hlen, Nat.sub_sub]
        · simp only [Source.feed_input, List.nil_append]
          omega
    · have hlen : length - bs.length ≤ src.input.length := by omega
      rw [fillBytes_of_le (by omega) (by omega), fillBytes_of_le (by omega) (by omega),
        Reading.resume, Source.feed_skip hlen, Source.feed_input,
        List.take_append_of_le_length hlen]
  keeps bs src := .refl _
  length_le bs src := by simp [Wire.fillBytes, Source.skip]

/-- Numbers can be taken in two goes. -/
theorem takeLongs_append (m n : Nat) (bs : Bytes) :
    takeLongs (m + n) bs = takeLongs m bs ++ takeLongs n (bs.drop (8 * m)) := by
  induction m generalizing bs with
  | zero => simp [takeLongs]
  | succ m ih =>
    rw [Nat.succ_add, takeLongs, takeLongs, ih, List.drop_drop, List.cons_append]
    congr 4
    omega

/-- Octets behind the numbers taken do not matter. -/
theorem takeLongs_append_right (n : Nat) (bs more : Bytes) (h : 8 * n ≤ bs.length) :
    takeLongs n (bs ++ more) = takeLongs n bs := by
  induction n generalizing bs with
  | zero => rfl
  | succ n ih =>
    have hlen : 8 ≤ bs.length := by omega
    rw [takeLongs, takeLongs, List.take_append_of_le_length hlen,
      List.drop_append_of_le_length hlen, ih _ (by rw [List.length_drop]; omega)]

/-- As many numbers are taken as are asked for. -/
@[simp] theorem length_takeLongs (n : Nat) (bs : Bytes) : (takeLongs n bs).length = n := by
  induction n generalizing bs with
  | zero => rfl
  | succ n ih => simp [takeLongs, ih]

/-- The numbers of an array can be cut anywhere: octets short of a number stay where they are. -/
theorem Resumable.fillLongs (length : Nat) :
    Resumable FrameStack.SameField (fillLongs length) where
  feed items src more := by
    have hfed : (src.feed more).input.length = src.input.length + more.length :=
      List.length_append
    by_cases h : length - items.length ≤ src.input.length / 8
    · have hlen : 8 * (length - items.length) ≤ src.input.length := by omega
      have hdone : length ≤ items.length + (length - items.length) := by omega
      have hcount : min (length - items.length) ((src.feed more).input.length / 8) =
          length - items.length := by omega
      simp only [Wire.fillLongs, Nat.min_eq_left h, hcount, List.length_append, length_takeLongs,
        hdone, decide_true, Progress.ofComplete, if_true, Reading.resume, Source.feed_skip hlen]
      rw [Source.feed_input, takeLongs_append_right _ _ _ hlen]
    · let count := src.input.length / 8
      have hcount : min (length - items.length) (src.input.length / 8) = count := by omega
      have hlen : 8 * count ≤ src.input.length := by omega
      have hmore : ¬ length ≤ items.length + count := by omega
      have hskip : ((src.skip (8 * count)).feed more).input.length =
          src.input.length - 8 * count + more.length := by
        simp [Source.skip, Source.feed]
      have hcount' : min (length - items.length) ((src.feed more).input.length / 8) =
          count + min (length - (items.length + count))
            (((src.skip (8 * count)).feed more).input.length / 8) := by omega
      have hfirst : Wire.fillLongs length items src =
          ⟨.incomplete, items ++ takeLongs count src.input, src.skip (8 * count)⟩ := by
        simp only [Wire.fillLongs, hcount, List.length_append, length_takeLongs, hmore,
          decide_false, Progress.ofComplete, Bool.false_eq_true, if_false]
      have hinput : (src.feed more).input.drop (8 * count) =
          ((src.skip (8 * count)).feed more).input := List.drop_append_of_le_length hlen
      have hsource : ∀ n, (src.feed more).skip (8 * (count + n)) =
          ((src.skip (8 * count)).feed more).skip (8 * n) := by
        intro n
        rw [← Source.feed_skip hlen]
        simp only [Source.skip, List.drop_drop, Nat.mul_add]
      have htake : takeLongs count (src.feed more).input = takeLongs count src.input :=
        takeLongs_append_right _ _ _ hlen
      rw [hfirst, Reading.resume]
      simp only [Wire.fillLongs, hcount', List.length_append, length_takeLongs, takeLongs_append,
        hinput, hsource, htake, List.append_assoc]
  keeps items src := .refl _
  length_le items src := by simp [Wire.fillLongs, Source.skip]

/-- A call that is handed a slot with something in it leaves something in it. -/
theorem readSized_incomplete {A : Type} {maxLength : Nat} {what : String} {empty : A}
    {fill : Nat → A → Source → Reading A} {a : A} {slot : Option A} {src src' : Source}
    (h : readSized maxLength what empty fill (some a) src = ⟨.incomplete, slot, src'⟩) :
    ∃ a', slot = some a' := by
  have hresume : ∀ b src, resumeSized what fill (some b) src = ⟨.incomplete, slot, src'⟩ →
      ∃ a', slot = some a' := by
    intro b src hb
    have hslot := congrArg Reading.slot hb
    exact ⟨_, hslot.symm⟩
  unfold readSized at h
  split at h
  · exact hresume a src h
  · split at h
    · exact ⟨a, (congrArg Reading.slot h).symm⟩
    · split at h
      · simp at h
      · simp at h
      · exact hresume empty _ h

/-- What has come of a text once its octets have been read into. -/
def concludeText (slot : TextSlot) : Progress → Option Bytes → Progress × TextSlot
  | .advance, none => (.advance, ⟨none, none⟩)
  | .advance, some bs =>
    match bs.toText? with
    | some s => (.advance, ⟨none, some s⟩)
    | none => (.failed (.invalidPayload .notUtf8), ⟨none, slot.text⟩)
  | progress, staged => (progress, ⟨staged, slot.text⟩)

/-- The octets of a text are collected before they are taken for text. -/
theorem Resumable.readText (maxLength : Nat) :
    Resumable FrameStack.SameMessage (readText maxLength) := by
  have h : Resumable FrameStack.SameMessage (readBytes maxLength) :=
    .readSized .fillBytes maxLength _ _
  have heq : Wire.readText maxLength = fun slot src =>
      (readBytes maxLength slot.staged src).conclude (concludeText slot) := by
    funext slot src
    unfold Wire.readText Reading.conclude
    rcases readBytes maxLength slot.staged src with ⟨_ | _ | e, _ | bs, src'⟩
    · rfl
    · dsimp only [concludeText]
      cases bs.toText? <;> rfl
    all_goals rfl
  rw [heq]
  refine h.conclude TextSlot.staged concludeText (fun slot staged => ?_) (fun slot e staged => ?_)
    fun slot src staged src' hr => ⟨rfl, rfl, rfl⟩
  · cases staged with
    | none => simp [concludeText]
    | some bs =>
      dsimp only [concludeText]
      cases bs.toText? <;> simp
  · cases staged <;> simp [concludeText]

/-- A text that has not come leaves the text of its slot alone. -/
theorem readText_incomplete {maxLength : Nat} {slot read : TextSlot} {src src' : Source}
    (h : readText maxLength slot src = ⟨.incomplete, read, src'⟩) : read.text = slot.text := by
  unfold readText at h
  rcases hr : readBytes maxLength slot.staged src with ⟨_ | _ | e, _ | bs, src''⟩ <;>
    simp only [hr] at h
  · simp at h
  · cases hs : bs.toText? <;> simp [hs] at h
  · exact (congrArg (fun r => r.slot.text) h).symm
  · exact (congrArg (fun r => r.slot.text) h).symm
  · simp at h
  · simp at h

/-- What has come of a field of text once its text has been read into. -/
def concludeTextField (onNull : NullText) (slot : TextSlot) (progress : Progress)
    (read : TextSlot) : Progress × TextSlot :=
  match progress, read.text with
  | .advance, some s => (.advance, ⟨read.staged, some s⟩)
  | .advance, none =>
    match onNull with
    | .keep => (.advance, ⟨read.staged, none⟩)
    | .blank => (.advance, ⟨read.staged, some ""⟩)
    | .refuse fault => (.failed (.invalidPayload fault), ⟨read.staged, slot.text⟩)
  | progress, _ => (progress, ⟨read.staged, slot.text⟩)

/-- What an absent text means is settled once, when its length has come. -/
theorem Resumable.readTextField (maxLength : Nat) (onNull : NullText) :
    Resumable FrameStack.SameMessage (readTextField maxLength onNull) := by
  have heq : Wire.readTextField maxLength onNull = fun slot src =>
      (Wire.readText maxLength ⟨slot.staged, none⟩ src).conclude
        (concludeTextField onNull slot) := by
    funext slot src
    unfold Wire.readTextField Reading.conclude
    rcases Wire.readText maxLength ⟨slot.staged, none⟩ src with ⟨_ | _ | e, ⟨staged, _ | s⟩, src'⟩
    · cases onNull <;> rfl
    all_goals rfl
  rw [heq]
  refine (Resumable.readText maxLength).conclude (fun slot : TextSlot => ⟨slot.staged, none⟩)
    (concludeTextField onNull) (fun slot read => ?_) (fun slot e read => ?_)
    fun slot src read src' hr => ?_
  · rcases read with ⟨staged, _ | s⟩
    · cases onNull <;> simp [concludeTextField]
    · simp [concludeTextField]
  · rcases read with ⟨staged, _ | s⟩ <;> simp [concludeTextField]
  · have htext : read.text = none := readText_incomplete hr
    obtain ⟨staged, text⟩ := read
    subst htext
    exact ⟨rfl, rfl, rfl⟩

/-- A field of numbers starts each call from the numbers it has. -/
theorem Resumable.readLongField (maxLength : Nat) :
    Resumable FrameStack.SameMessage fun slot src =>
      (readLongs maxLength (some slot) src).map fun items => items.getD [] := by
  have h : Resumable FrameStack.SameMessage (readLongs maxLength) :=
    .readSized .fillLongs maxLength _ _
  refine h.conclude some (fun _ progress items => (progress, items.getD []))
    (fun slot items => by simp) (fun slot e items => by simp) fun slot src items src' hr => ?_
  obtain ⟨items', rfl⟩ := readSized_incomplete hr
  exact ⟨rfl, rfl, rfl⟩

end Enlistment.Wire
