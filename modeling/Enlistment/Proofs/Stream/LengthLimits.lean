import Enlistment.Proofs.Message.Records
import Enlistment.Proofs.Stream.Failing
import Enlistment.Proofs.Stream.RowShapes
import Enlistment.Proofs.Wire.RefusedLengths

/-!
# Length limits of a decoder

A decoder has one limit for all lengths, at every depth of a message. Every message it gives
keeps to the limit, also after failures. A length that is negative or beyond the limit is refused
by the call that has its last octet, and nothing of its field has been stored by then. No other
call fails for a length.
-/

namespace Enlistment

open Wire

/-! ## Settling -/

/-- Rows that do not fit are used up, and those of an earlier message stay. -/
theorem assembleRows_refused {tag : Int8} {keys keys' : RequestKeys}
    {values values' : RequestValues} {e : CodecError}
    (h : assembleRows tag keys values = (.error e, keys', values')) :
    keys' = { keys with inbound := none } ∧
      values' = { values with inboundValues := none, inboundInvocations := none } := by
  unfold assembleRows at h
  dsimp only at h
  split at h
  · cases h
    exact ⟨rfl, rfl⟩
  · cases h

/-- Handing over rows that are under a limit. -/
theorem Wire.Field.capped_handedOver {A : Type} {limit : Nat} (field : Field A) {tag : Int8}
    {slot : A} (h : field.Capped limit tag none slot) :
    field.Capped limit tag none (field.handedOver slot) := by
  cases field with
  | keys layout => exact ⟨forall_of_none, h.1⟩
  | values selector value invocation =>
    simp only [Field.Capped, ite_self] at h ⊢
    refine ⟨forall_of_none, forall_of_none,
      fun items hitems => ?_, fun items hitems => ?_⟩
    · cases hvalues : slot.inboundValues with
      | none => simp [Field.handedOver, hvalues] at hitems
      | some found =>
        simp only [Field.handedOver, hvalues, Option.map_some, Option.some_or, Option.some.injEq,
          Sum.inl.injEq] at hitems
        exact hitems ▸ h.1 found hvalues
    · cases hvalues : slot.inboundValues with
      | none =>
        simp only [Field.handedOver, hvalues, Option.map_none, Option.none_or,
          Option.map_eq_some_iff, Sum.inr.injEq, exists_eq_right] at hitems
        exact h.2.1 items hitems
      | some found => simp [Field.handedOver, hvalues] at hitems
  | _ => exact h

/-- Settling a request keeps its lengths under a limit, whether its rows fit or not. -/
theorem requestLayout_settlesCapped (limit : Nat) : requestLayout.SettlesCapped limit := by
  intro slots h
  obtain ⟨deployment, affinity, messageId, cacheId, clientFirst, filter, future, keepBinary, keys,
    lock, mini, snapshot, needResult, op, taskHash, threadId, timeout, topology, txTimeout,
    values, ⟨⟩⟩ := slots
  obtain ⟨hdeployment, haffinity, -, -, -, hfilter, -, -, hkeys, hlock, -, hsnapshot, -, -, -, -, -,
    htopology, -, hvalues, -⟩ := h
  have hkeys : (Field.keys keyLayout).Capped limit op none keys := hkeys
  have hvalues : (Field.values Operation.invoke.ordinal valueLayout invokeLayout).Capped limit op
    none values := hvalues
  rcases hrows : assembleRows op keys values with ⟨check, keys', values'⟩
  have hsettled : (Field.keys keyLayout).Capped limit op none keys' ∧
      (Field.values Operation.invoke.ordinal valueLayout invokeLayout).Capped limit op none
        values' := by
    cases check with
    | error e =>
      obtain ⟨rfl, rfl⟩ := assembleRows_refused hrows
      exact ⟨⟨forall_of_none, hkeys.2⟩, forall_of_none, forall_of_none,
        hvalues.2.2⟩
    | ok u =>
      obtain ⟨rfl, rfl⟩ := assembleRows_eq hrows
      exact ⟨Field.capped_handedOver _ hkeys, Field.capped_handedOver _ hvalues⟩
  simp only [settleRequest, hrows]
  exact ⟨hdeployment, haffinity, trivial, trivial, trivial, hfilter, trivial, trivial, hsettled.1,
    hlock, trivial, hsnapshot, trivial, trivial, trivial, trivial, trivial, htopology, trivial,
    hsettled.2, trivial⟩

/-- The check of a filter never fails for a length. -/
theorem checkFilter_refusesLength (slots : Int8 × Option ValueRecord × TextSlot × Unit) :
    (Progress.ofCheck (checkFilter slots)).refusesLength = false := by
  dsimp only [checkFilter]
  split
  · rfl
  · split <;> rfl

/-- Settling a request never fails for a length. -/
theorem requestLayout_settlesPlainly : requestLayout.SettlesPlainly := by
  intro slots
  cases hcheck : (settleRequest slots).1 with
  | ok => rfl
  | error e =>
    have hsettle : (requestLayout.settle ⟨0, slots⟩).1 = .error e := hcheck
    obtain ⟨fault, rfl⟩ := requestLayout_settle_error hsettle
    rfl

namespace MessageType

/-- Settling a message of any type, and the messages in it, keeps lengths under a limit. -/
theorem layout_settlesCapped (limit : Nat) (t : MessageType) :
    t.layout.Every (Layout.SettlesCapped limit) := by
  cases t with
  | request =>
    refine ⟨requestLayout_settlesCapped limit, ?_⟩
    simp [topologyLayout, lockLayout, snapshotLayout, deploymentLayout, keyLayout, valueLayout,
      invokeLayout, filterLayout, baseFields, Layout.plain, Layout.Every, Fields.Every,
      Field.Every, Layout.SettlesCapped]
  | _ =>
    simp [layout, topologyLayout, lockLayout, snapshotLayout, deploymentLayout, keyLayout,
      valueLayout, invokeLayout, filterLayout, returnLayout, failureLayout, errorLayout,
      responseLayout, baseFields, Layout.plain, Layout.Every, Fields.Every, Field.Every,
      Layout.SettlesCapped]

/-- The messages that must be there in a message of any type hold numbers of fixed width. -/
theorem layout_requiresFixed (t : MessageType) : t.layout.Every Layout.RequiresFixed := by
  cases t <;>
    simp [layout, topologyLayout, lockLayout, snapshotLayout, deploymentLayout, keyLayout,
      valueLayout, invokeLayout, filterLayout, returnLayout, failureLayout, errorLayout,
      requestLayout, responseLayout, baseFields, Layout.plain, Layout.Every, Fields.Every,
      Field.Every, Layout.RequiresFixed, Fields.RequireFixed, Field.RequiresFixed,
      Layout.fixedWidth, Fields.fixedWidth, Field.fixedWidth]

/-- Settling a message of any type, and the messages in it, never fails for a length. -/
theorem layout_settlesPlainly (t : MessageType) : t.layout.Every Layout.SettlesPlainly := by
  have hok : (Progress.ofCheck (.ok ())).refusesLength = false := rfl
  cases t with
  | request =>
    refine ⟨requestLayout_settlesPlainly, ?_⟩
    simp [topologyLayout, lockLayout, snapshotLayout, deploymentLayout, keyLayout, valueLayout,
      invokeLayout, filterLayout, baseFields, Layout.plain, Layout.Every, Fields.Every,
      Field.Every, Layout.SettlesPlainly, hok, checkFilter_refusesLength]
  | _ =>
    simp [layout, topologyLayout, lockLayout, snapshotLayout, deploymentLayout, keyLayout,
      valueLayout, invokeLayout, filterLayout, returnLayout, failureLayout, errorLayout,
      responseLayout, baseFields, Layout.plain, Layout.Every, Fields.Every, Field.Every,
      Layout.SettlesPlainly, hok, checkFilter_refusesLength]

end MessageType

namespace Decoder

variable {d d' : Decoder}

/-! ## Messages under a limit -/

/-- Whether a decoder keeps no length beyond its limit, in its frames or in the message that it
is reading. -/
structure Capped (d : Decoder) : Prop where
  stack : d.stack.Capped d.maxLength
  current : ∀ draft, d.current = some draft →
    draft.type.layout.Capped d.maxLength (some d.stack.place) draft.record

/-- A decoder that has not been fed keeps no length. -/
theorem Capped.fresh (accepted : List MessageType) (maxLength : Nat) :
    ({ accepted, maxLength } : Decoder).Capped :=
  ⟨.empty, forall_of_none⟩

/-- Octets that have come are not looked at before the next call. -/
theorem Capped.feed (h : d.Capped) (bs : Bytes) : (d.feed bs).Capped := ⟨h.stack, h.current⟩

/-- The message of a call is the one that is being read or a blank one. -/
theorem Capped.start (h : d.Capped) {draft : Draft} (hstart : d.start = .ok (some draft)) :
    draft.type.layout.Capped d.maxLength (some d.stack.place) draft.record := by
  unfold Decoder.start at hstart
  cases hcurrent : d.current with
  | some found =>
    simp only [hcurrent] at hstart
    obtain rfl := Option.some.inj (Except.ok.inj hstart)
    exact h.current found hcurrent
  | none =>
    simp only [hcurrent] at hstart
    split at hstart
    · cases hstart
    · split at hstart
      · cases hstart
      · next type _ =>
        obtain rfl := Option.some.inj (Except.ok.inj hstart)
        exact type.layout.capped_blank _

/-- A call leaves the limit of a decoder alone. -/
theorem next_maxLength (d : Decoder) : d.next.2.maxLength = d.maxLength := by
  unfold Decoder.next
  split
  · rfl
  · rfl
  · split <;> rfl

/-- A call keeps a decoder under its limit, whether it completes a message or fails, and the
message that it completes is within the limit. -/
theorem Capped.next (h : d.Capped) :
    d.next.2.Capped ∧ ∀ draft, d.next.1 = .ok (some draft) →
      draft.type.layout.Within d.maxLength draft.record := by
  unfold Decoder.next
  split
  · exact ⟨h, fun _ hdraft => by cases hdraft⟩
  · exact ⟨h, fun _ hdraft => by cases hdraft⟩
  · next draft hstart =>
    obtain ⟨type, record⟩ := draft
    have hread := type.layout.keepsCaps (type.layout_settlesCapped d.maxLength) record
      ⟨d.stack, d.pending⟩ h.stack (h.start hstart)
    simp only [Draft.read]
    rcases hr : type.layout.read d.maxLength record ⟨d.stack, d.pending⟩ with
      ⟨_ | _ | e, record', src⟩ <;> rw [hr] at hread <;> simp only [Reading.map]
    · refine ⟨⟨.empty, forall_of_none⟩, fun draft hdraft => ?_⟩
      rw [← Option.some.inj (Except.ok.inj hdraft)]
      exact Layout.Capped.within record' (hread.complete rfl)
    all_goals
      refine ⟨⟨hread.stack, fun draft hdraft => ?_⟩, fun _ hdraft => by cases hdraft⟩
      rw [← Option.some.inj hdraft]
      exact hread.slot

/-- All messages of a decoder are within its limit, whatever it is fed and whatever fails. The
induction is on the pieces: each call leaves the decoder under its limit. -/
theorem Capped.persist (h : d.Capped) (pieces : List Bytes) {draft : Draft}
    (hdraft : .ok (some draft) ∈ d.persist pieces) :
    draft.type.layout.Within d.maxLength draft.record := by
  induction pieces generalizing d with
  | nil => cases hdraft
  | cons piece rest ih =>
    obtain ⟨hnext, hwithin⟩ := (h.feed piece).next
    rcases List.mem_cons.mp hdraft with hfirst | hrest
    · exact hwithin draft hfirst.symm
    · have hlater := ih hnext hrest
      rwa [next_maxLength] at hlater

/-! ## Lengths that are refused -/

/-- Whether a decoder goes on with a length: of a field of its message, or of a message in it at
any depth. -/
def awaitsLength (d : Decoder) : Bool :=
  d.current.any fun draft => draft.type.layout.awaitsLength d.stack.place draft.record

/-- A length that is not accepted under a limit, and the failure that answers it. -/
inductive RefusedLength (maxLength : Nat) (raw : Int32) : CodecError → Prop
  | negative (h : raw < 0) (habsent : raw ≠ -1) : RefusedLength maxLength raw (.invalidLength raw)
  | beyond (h : maxLength < raw.toInt.toNat) :
      RefusedLength maxLength raw (.lengthOverflow raw.toInt.toNat)

/-- A length that is refused has no reading. -/
theorem RefusedLength.decodeLength {maxLength : Nat} {raw : Int32} {e : CodecError}
    (h : RefusedLength maxLength raw e) : decodeLength maxLength raw = .error e := by
  unfold Wire.decodeLength
  cases h with
  | negative h habsent => rw [if_neg habsent, if_pos h]
  | beyond h =>
    have hpos : 0 < raw.toInt := by omega
    have hnonneg : ¬ raw < 0 := by
      rw [Int32.lt_iff_toInt_lt]
      exact Int.not_lt.mpr (Int.le_of_lt hpos)
    have habsent : raw ≠ -1 := by
      rintro rfl
      exact absurd hpos (by decide)
    rw [if_neg habsent, if_neg hnonneg, if_pos h]

/-- A decoder that goes on with a length that does not come reads nothing into its message. -/
theorem awaited_read (h : d.awaitsLength = true) {progress : Progress} {count : Nat}
    (hstop : LengthStop d.maxLength d.pending progress count) :
    ∃ draft, d.current = some draft ∧ draft.read d.maxLength ⟨d.stack, d.pending⟩ =
      ⟨progress, draft, Source.skip ⟨d.stack, d.pending⟩ count⟩ := by
  obtain ⟨⟨type, record⟩, hcurrent, hawaits⟩ := (Option.any_eq_true ..).mp h
  have hread := type.layout.read_stops type.layout_requiresFixed record ⟨d.stack, d.pending⟩
    hawaits hstop
  refine ⟨⟨type, record⟩, hcurrent, ?_⟩
  simp only [Draft.read, hread, Reading.map]

/-- As long as a length has not come a call does nothing. -/
theorem next_of_awaited_short (h : d.awaitsLength = true) (hshort : d.pending.length < 4) :
    d.next = (.ok none, d) := by
  obtain ⟨draft, hcurrent, hread⟩ := awaited_read h (.short hshort)
  have hstart : d.start = .ok (some draft) := by simp only [Decoder.start, hcurrent]
  rw [next_of_start hstart, hread]
  simp only [after, Source.skip, List.drop_zero, ← hcurrent]

/-- A length that is refused makes a call fail, and that is all the call does. -/
theorem next_of_awaited_refused {e : CodecError} (h : d.awaitsLength = true)
    (hlong : 4 ≤ d.pending.length)
    (he : RefusedLength d.maxLength (int32Of (d.pending.take 4)) e) :
    d.next = (.error e, d) := by
  obtain ⟨draft, hcurrent, hread⟩ := awaited_read h (.refused hlong he.decodeLength)
  have hstart : d.start = .ok (some draft) := by simp only [Decoder.start, hcurrent]
  rw [next_of_start hstart, hread]
  simp only [after, Source.skip, ← hcurrent]

/-- A failed call keeps all octets. -/
theorem next_error_pending {e : CodecError} (h : d.next = (.error e, d')) :
    d'.pending = d.pending := by
  by_cases hstart : ∃ draft, d.start = .ok (some draft)
  · obtain ⟨draft, hstart⟩ := hstart
    obtain ⟨draft', src, -, rfl⟩ := next_eq_error hstart h
    rfl
  · rw [(next_eq_self h fun draft hs => hstart ⟨draft, hs⟩).1]

/-- A call that fails on more octets fails in the same way if it is made at once, and ends where
it would have ended. It only keeps the octets that the first call would have taken. -/
theorem next_feed_error {d'' : Decoder} {e : CodecError} (h : d.next = (.ok none, d'))
    (bs : Bytes) (h' : (d'.feed bs).next = (.error e, d'')) :
    (d.feed bs).next = (.error e, { d'' with pending := d.pending ++ bs }) := by
  cases hstart : d.start with
  | error e' => simp [next, hstart] at h
  | ok started =>
    cases started with
    | none =>
      simp only [next, hstart, Prod.mk.injEq, true_and] at h
      subst h
      have hpending : d''.pending = d.pending ++ bs := next_error_pending h'
      rw [h', ← hpending]
    | some draft =>
      rw [next_of_start hstart] at h
      rcases hr : draft.read d.maxLength ⟨d.stack, d.pending⟩ with ⟨_ | _ | e', draft', src⟩ <;>
        simp only [hr, after, Prod.mk.injEq, reduceCtorEq, Except.ok.injEq, false_and,
          true_and] at h
      subst h
      obtain ⟨draft'', src', hread, rfl⟩ := next_eq_error rfl h'
      have hfed : (d.feed bs).start = .ok (some draft) := by
        rw [start_feed bs (by simp [hstart]), hstart]
      have hagain := draft.read_feed d.maxLength ⟨d.stack, d.pending⟩ bs
      rw [hr] at hagain
      rw [next_of_start hfed]
      show (d.feed bs).after (draft.read d.maxLength (Source.feed ⟨d.stack, d.pending⟩ bs)) = _
      have hread : draft'.read d.maxLength (src.feed bs) = ⟨.failed e, draft'', src'⟩ := hread
      simp only [hagain, Reading.resume, hread, after, feed]

/-- A call that gets as far as a length with some of its octets does the same with all of them
at hand. While octets of the length are missing it stops in front of it, and if the length is
refused it fails there: its frames and its message are those it has in front of the length. -/
theorem next_feed_of_awaited (h : d.next = (.ok none, d')) (hawaits : d'.awaitsLength = true)
    (bs : Bytes) :
    ((d'.pending ++ bs).length < 4 → (d.feed bs).next = (.ok none, d'.feed bs)) ∧
      ∀ e, 4 ≤ (d'.pending ++ bs).length →
        RefusedLength d'.maxLength (int32Of ((d'.pending ++ bs).take 4)) e →
        (d.feed bs).next = (.error e, { d' with pending := d.pending ++ bs }) := by
  have hawaits' : (d'.feed bs).awaitsLength = true := hawaits
  refine ⟨fun hshort => ?_, fun e hlong he => ?_⟩
  · have hstops := next_of_awaited_short hawaits' hshort
    have hfed := next_feed d bs
    rw [h] at hfed
    cases hfed with
    | again result decoder =>
      have hresult : (d.feed bs).next.1 = .ok none := by rw [result, hstops]
      exact Prod.ext hresult (by rw [decoder none hresult, hstops])
  · have hfails := next_feed_error h bs (next_of_awaited_refused hawaits' hlong he)
    exact hfails

/-- However the octets of a length are cut, the calls that do not see the last of them give
nothing and the one that does fails. The induction is on the pieces before the last octet. -/
theorem persist_of_awaited {e : CodecError} (hawaits : d.awaitsLength = true)
    (early : List Bytes) (last : Bytes) (later : List Bytes)
    (hearly : (d.pending ++ early.flatten).length < 4)
    (hlast : 4 ≤ (d.pending ++ early.flatten ++ last).length)
    (he : RefusedLength d.maxLength (int32Of ((d.pending ++ early.flatten ++ last).take 4)) e) :
    ∃ results, d.persist (early ++ last :: later) =
      List.replicate early.length (.ok none) ++ .error e :: results := by
  induction early generalizing d with
  | nil =>
    have hnext : (d.feed last).next = (.error e, d.feed last) := by
      rw [List.flatten_nil, List.append_nil] at hlast he
      exact next_of_awaited_refused hawaits hlast he
    exact ⟨(d.feed last).persist later, by simp only [List.nil_append, persist, hnext]; rfl⟩
  | cons piece rest ih =>
    rw [List.flatten_cons, ← List.append_assoc] at hearly hlast he
    have hshort : (d.feed piece).pending.length < 4 :=
      Nat.lt_of_le_of_lt (by rw [List.length_append]; exact Nat.le_add_right ..) hearly
    have hnext : (d.feed piece).next = (.ok none, d.feed piece) :=
      next_of_awaited_short hawaits hshort
    obtain ⟨results, hresults⟩ := ih (d := d.feed piece) hawaits hearly hlast he
    refine ⟨results, ?_⟩
    simp only [List.cons_append, persist, hnext, hresults, List.length_cons, List.replicate_succ]

/-- A decoder that cannot start a message has not looked at a length. -/
theorem start_refusesLength {e : CodecError} (h : d.start = .error e) :
    e.refusesLength = false := by
  unfold Decoder.start at h
  dsimp only at h
  split at h
  · cases h
  · split at h
    · cases h
    · split at h
      · rw [← Except.error.inj h]
        rfl
      · cases h

/-- A call that fails for a length leaves the decoder where it goes on with that length. -/
theorem awaitsLength_of_refused {e : CodecError} (h : d.next = (.error e, d'))
    (he : e.refusesLength = true) : d'.awaitsLength = true := by
  by_cases hstart : ∃ draft, d.start = .ok (some draft)
  · obtain ⟨⟨type, record⟩, hstart⟩ := hstart
    obtain ⟨draft', src, hread, rfl⟩ := next_eq_error hstart h
    have hstops := type.layout.stopsAtLengths type.layout_requiresFixed type.layout_settlesPlainly
      d.maxLength record ⟨d.stack, d.pending⟩
    simp only [Draft.read] at hread
    rcases hr : type.layout.read d.maxLength record ⟨d.stack, d.pending⟩ with
      ⟨progress, record', src'⟩
    rw [hr] at hstops hread
    obtain ⟨rfl, rfl, rfl⟩ := Reading.mk.inj hread
    exact hstops he
  · have hfailed := (next_eq_self h fun draft hs => hstart ⟨draft, hs⟩).2
    exact absurd ((start_refusesLength hfailed).symm.trans he) Bool.false_ne_true

/-- A decoder limits all lengths at every depth. The lengths of all byte strings, texts and arrays
in a message it gives are within its limit, whatever it is fed, however that is cut and whatever
failed before. A length that is negative, unless it stands for an absent unit, or beyond the limit
is refused by the call that has its last octet: the calls before give nothing, and the call that
fails leaves the frames and the message as they are in front of the length. No call fails for a
length in any other place. -/
theorem lengths_limited (accepted : List MessageType) (maxLength : Nat) :
    (∀ (pieces : List Bytes) (draft : Draft),
      .ok (some draft) ∈ ({ accepted, maxLength } : Decoder).persist pieces →
      draft.type.layout.Within maxLength draft.record) ∧
    (∀ (d d' : Decoder) (bs : Bytes) (e : CodecError), d.maxLength = maxLength →
      d.next = (.ok none, d') → d'.awaitsLength = true →
      4 ≤ (d'.pending ++ bs).length →
      RefusedLength maxLength (int32Of ((d'.pending ++ bs).take 4)) e →
      (d.feed bs).next = (.error e, { d' with pending := d.pending ++ bs })) ∧
    (∀ (d : Decoder) (early : List Bytes) (last : Bytes) (later : List Bytes) (e : CodecError),
      d.maxLength = maxLength → d.awaitsLength = true →
      (d.pending ++ early.flatten).length < 4 →
      4 ≤ (d.pending ++ early.flatten ++ last).length →
      RefusedLength maxLength (int32Of ((d.pending ++ early.flatten ++ last).take 4)) e →
      ∃ results, d.persist (early ++ last :: later) =
        List.replicate early.length (.ok none) ++ .error e :: results) ∧
    ∀ (d d' : Decoder) (e : CodecError), d.next = (.error e, d') → e.refusesLength = true →
      d'.awaitsLength = true := by
  refine ⟨fun pieces draft hdraft => (Capped.fresh accepted maxLength).persist pieces hdraft,
    fun d d' bs e hmax h hawaits hlong he => ?_,
    fun d early last later e hmax hawaits hearly hlast he => ?_,
    fun _ _ _ => awaitsLength_of_refused⟩
  · have hmax' : d'.maxLength = d.maxLength := by
      rw [← next_maxLength d, h]
    rw [← hmax, ← hmax'] at he
    exact (next_feed_of_awaited h hawaits bs).2 e hlong he
  · exact persist_of_awaited hawaits early last later hearly hlast (hmax.symm ▸ he)

/-- A key that comes in two pieces, and a result up to the length of its value. -/
theorem lengths_limited_of_key_and_result :
    (.ok (some ⟨.key, 0, 4, some [7, 8, 9], ()⟩) ∈
        ({ accepted := [.key], maxLength := 16 } : Decoder).persist
          [[90, 0, 1, 0, 2, 0, 4, 0, 0, 0, 3], [0, 0, 0, 7, 8, 9]] ∧
      keyLayout.Within 16 ⟨0, 4, some [7, 8, 9], ()⟩) ∧
    ∃ d d' : Decoder,
      d = { accepted := [.returnValue], maxLength := 16,
            pending := [162, 0, 1, 0, 1, 0, 89, 0, 1, 0, 1, 0] } ∧
      d.next = (.ok none, d') ∧ d'.awaitsLength = true ∧
      (d.feed [17, 0, 0, 0, 7]).next =
        (.error (.lengthOverflow 17), { d' with pending := d.pending ++ [17, 0, 0, 0, 7] }) ∧
      (∀ d'', (d.feed [17, 0, 0, 0, 7]).next = (.error (.lengthOverflow 17), d'') →
        d''.awaitsLength = true) ∧
      ∃ results, d'.persist [[255], [255, 255], [254, 7], []] =
        [.ok none, .ok none, .error (.invalidLength (-16777217))] ++ results := by
  obtain ⟨hwithin, hcall, hcuts, honly⟩ := lengths_limited [.key] 16
  have hkey : .ok (some ⟨.key, 0, 4, some [7, 8, 9], ()⟩) ∈
      ({ accepted := [.key], maxLength := 16 } : Decoder).persist
        [[90, 0, 1, 0, 2, 0, 4, 0, 0, 0, 3], [0, 0, 0, 7, 8, 9]] := .tail _ (.head _)
  refine ⟨⟨hkey, hwithin _ _ hkey⟩, _, _, rfl, rfl, rfl, ?_, fun d'' hfails => ?_, ?_⟩
  · exact hcall _ _ _ _ rfl rfl rfl (by decide) (.beyond (by decide))
  · exact honly _ _ _ hfails rfl
  · exact hcuts _ [[255], [255, 255]] [254, 7] [[]] _ rfl rfl (by decide) (by decide)
      (.negative (by decide) (by decide))

end Decoder

end Enlistment
