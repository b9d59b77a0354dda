import Enlistment.Proofs.Stream.Receiving

/-!
# Calls after a failure

A failed call keeps all octets of the decoder, also those that it had taken, but it keeps the
progress that it made with them. A failure without progress is final: all later calls fail in
the same way, whatever is fed. This is so for every header that is refused. After a failure with
progress the next call takes octets of earlier fields for those of the field that failed.
-/

namespace Enlistment

open Wire

/-- A header that is not accepted leaves the frames alone. -/
theorem Wire.readHeader_refused {type : UInt16} {fieldCount : Nat} {src : Source}
    (h : (readHeader type fieldCount src).progress.isAdvance = false) :
    (readHeader type fieldCount src).source.stack = src.stack := by
  unfold readHeader at h ⊢
  split
  · next hdone => simp [hdone] at h
  · next hdone =>
    split
    · rfl
    · next hlong =>
      split
      · rfl
      · next flags hcheck => simp [hdone, hlong, hcheck] at h

/-- A message whose header has not been accepted has not been touched. -/
theorem Wire.Layout.read_refused_header {R : Type} (layout : Layout R) {maxLength : Nat}
    {message : R} {src : Source}
    (h : (layout.read maxLength message src).source.stack.top.headerDone = false) :
    (layout.read maxLength message src).slot = message ∧
      (layout.read maxLength message src).source.stack = src.stack := by
  cases layout with
  | message type fields settle =>
    rw [Layout.read_source] at h ⊢
    have hheader := (readHeader_stack type fields.count src).2.2
    cases hadvance : (readHeader type fields.count src).progress.isAdvance with
    | true =>
      -- reading fields does not take an accepted header back
      rw [if_pos hadvance, ((fields.resumable maxLength).keeps _ _ _ _).headerDone] at h
      cases hprogress : (readHeader type fields.count src).progress with
      | advance => rw [hheader hprogress] at h; cases h
      | incomplete => rw [hprogress] at hadvance; cases hadvance
      | failed e => rw [hprogress] at hadvance; cases hadvance
    | false =>
      rw [if_neg (by simp)]
      refine ⟨?_, readHeader_refused hadvance⟩
      simp only [Layout.read, hadvance, Bool.false_eq_true, if_false]

namespace Decoder

/-- Feeds pieces one by one and makes one call after each of them, whatever comes of it. -/
def persist (d : Decoder) : List Bytes → List (Except CodecError (Option Draft))
  | [] => []
  | piece :: rest =>
    let r := (d.feed piece).next
    r.1 :: r.2.persist rest

/-- A decoder whose calls fail and leave it as it is. -/
def Stuck (d : Decoder) (e : CodecError) : Prop := d.next = (.error e, d)

/-- Whether a call that failed is where it started: at the same place of the same message. -/
structure Unmoved (d d' : Decoder) : Prop where
  stack : d'.stack = d.stack
  current : ∀ draft, d.start = .ok (some draft) → d'.current = some draft

variable {d d' : Decoder} {e : CodecError}

/-- A decoder that fails on a message has read it up to the failure. -/
theorem next_eq_error {draft : Draft} (hstart : d.start = .ok (some draft))
    (h : d.next = (.error e, d')) :
    ∃ draft' src, draft.read d.maxLength ⟨d.stack, d.pending⟩ = ⟨.failed e, draft', src⟩ ∧
      d' = { d with stack := src.stack, current := some draft' } := by
  rw [next_of_start hstart] at h
  rcases hread : draft.read d.maxLength ⟨d.stack, d.pending⟩ with ⟨_ | _ | e', draft', src⟩ <;>
    rw [hread] at h
  · cases h
  · cases h
  · obtain ⟨he, hd⟩ := Prod.mk.inj h
    obtain rfl := Except.error.inj he
    exact ⟨draft', src, rfl, hd.symm⟩

/-- A decoder that refuses a type or has no type yet is left alone. -/
theorem next_eq_self (h : d.next = (.error e, d')) (hstart : ∀ draft, d.start ≠ .ok (some draft)) :
    d' = d ∧ d.start = .error e := by
  unfold next at h
  rcases hs : d.start with e' | _ | draft <;> rw [hs] at h
  · obtain ⟨he, hd⟩ := Prod.mk.inj h
    exact ⟨hd.symm, by rw [Except.error.inj he]⟩
  · cases h
  · exact absurd hs (hstart draft)

/-- A decoder that is where its failed call started is stuck. -/
theorem Unmoved.stuck (hunmoved : d.Unmoved d') (h : d.next = (.error e, d')) : d'.Stuck e := by
  by_cases hstart : ∃ draft, d.start = .ok (some draft)
  · obtain ⟨draft, hstart⟩ := hstart
    obtain ⟨draft', src, hread, rfl⟩ := next_eq_error hstart h
    obtain rfl : draft' = draft := Option.some.inj (hunmoved.current draft hstart)
    have hstack : src.stack = d.stack := hunmoved.stack
    have hagain : ({ d with stack := src.stack, current := some draft' } : Decoder).start =
      .ok (some draft') := rfl
    rw [Stuck, next_of_start hagain, hstack, hread]
    simp only [after, hstack]
  · obtain ⟨rfl, -⟩ := next_eq_self h fun draft hs => hstart ⟨draft, hs⟩
    exact h

/-- A failed call that has not accepted the header of a message is where it started. -/
theorem unmoved_of_refused_header (h : d.next = (.error e, d'))
    (hheader : d'.stack.top.headerDone = false) : d.Unmoved d' := by
  by_cases hstart : ∃ draft, d.start = .ok (some draft)
  · obtain ⟨⟨type, record⟩, hstart⟩ := hstart
    obtain ⟨draft', src, hread, rfl⟩ := next_eq_error hstart h
    have hsource : (type.layout.read d.maxLength record ⟨d.stack, d.pending⟩).source = src :=
      congrArg Reading.source hread
    obtain ⟨hrecord, hstack⟩ := type.layout.read_refused_header (by rw [hsource]; exact hheader)
    have hslot : (⟨type, record⟩ : Draft) = draft' := by
      rw [← show (Draft.read d.maxLength ⟨type, record⟩ ⟨d.stack, d.pending⟩).slot = draft' from
        congrArg Reading.slot hread]
      simp only [Draft.read, Reading.map, hrecord]
    refine ⟨by rw [← hsource]; exact hstack, fun draft hs => ?_⟩
    rw [← Option.some.inj (Except.ok.inj (hstart.symm.trans hs)), hslot]
  · obtain ⟨rfl, -⟩ := next_eq_self h fun draft hs => hstart ⟨draft, hs⟩
    exact ⟨rfl, fun draft hs => absurd ⟨draft, hs⟩ hstart⟩

/-- A stuck decoder is stuck whatever it is fed. -/
theorem Stuck.feed (h : d.Stuck e) (bs : Bytes) : (d.feed bs).Stuck e := by
  by_cases hstart : ∃ draft, d.start = .ok (some draft)
  · obtain ⟨draft, hstart⟩ := hstart
    obtain ⟨draft', src, hread, heq⟩ := next_eq_error hstart h
    have hstack : src.stack = d.stack := (congrArg Decoder.stack heq).symm
    have hcurrent : d.current = some draft' := congrArg Decoder.current heq
    have hfed : (d.feed bs).start = .ok (some draft) := by
      rw [start_feed bs (by simp [hstart]), hstart]
    have hagain := draft.read_feed d.maxLength ⟨d.stack, d.pending⟩ bs
    rw [hread] at hagain
    rw [Stuck, next_of_start hfed]
    show (d.feed bs).after (draft.read d.maxLength (Source.feed ⟨d.stack, d.pending⟩ bs)) = _
    rw [hagain]
    simp only [Reading.resume, after, Source.feed_stack, hstack, ← hcurrent, Decoder.feed]
  · obtain ⟨-, herror⟩ := next_eq_self h fun draft hs => hstart ⟨draft, hs⟩
    have hfed : (d.feed bs).start = .error e := by
      rw [start_feed bs (by simp [herror]), herror]
    simp only [Stuck, next, hfed]

/-- All calls of a stuck decoder fail in the same way. -/
theorem Stuck.persist (h : d.Stuck e) (pieces : List Bytes) :
    ∀ r ∈ d.persist pieces, r = .error e := by
  induction pieces generalizing d with
  | nil => intro r hr; cases hr
  | cons piece rest ih =>
    have hfed : (d.feed piece).next = (.error e, d.feed piece) := h.feed piece
    simp only [Decoder.persist, hfed]
    exact List.forall_mem_cons.mpr ⟨rfl, ih (h.feed piece)⟩

/-- A failure without progress is final. If a call fails where it started, or before it has
accepted the header of a message, then all later calls fail in the same way, whatever is fed. -/
theorem failure_without_progress_is_final (h : d.next = (.error e, d'))
    (hprogress : d.Unmoved d' ∨ d'.stack.top.headerDone = false) (pieces : List Bytes) :
    ∀ r ∈ d'.persist pieces, r = .error e := by
  have hunmoved : d.Unmoved d' := hprogress.elim id (unmoved_of_refused_header h)
  exact (hunmoved.stuck h).persist pieces

/-- A key in an unknown version of the protocol, and more octets of it. -/
theorem unsupported_version_is_final :
    let d : Decoder := { accepted := [.key], pending := [90, 0, 2, 0, 2, 0] }
    d.next.1 = .error (.unsupportedVersion 2) ∧
      ∀ r ∈ d.next.2.persist [[], [4, 0, 0, 0], [255, 255, 255, 255]],
        r = .error (.unsupportedVersion 2) := by
  intro d
  have herror : d.next.1 = .error (.unsupportedVersion 2) := rfl
  have hnext : d.next = (.error (.unsupportedVersion 2), d.next.2) := Prod.ext herror rfl
  exact ⟨herror, failure_without_progress_is_final hnext (.inr rfl) _⟩

/-- A failure with progress is not final. A key whose length is negative is refused. The next call
takes the octets of its partition for its length and gives a key that nobody has sent. -/
theorem message_after_failure :
    let d : Decoder := { accepted := [.key] }
    let d' := (d.feed [90, 0, 1, 0, 2, 0]).next.2.feed [4, 0, 0, 0, 254, 255, 255, 255]
    d'.next.1 = .error (.invalidLength (-2)) ∧
      d'.next.2.persist [[]] = [.ok (some ⟨.key, 0, 4, some [254, 255, 255, 255], ()⟩)] :=
  ⟨rfl, rfl⟩

end Decoder

end Enlistment
