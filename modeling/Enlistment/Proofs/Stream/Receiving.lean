import Enlistment.Proofs.Wire.MessageResumption
import Enlistment.Stream.Decoder

/-!
# Receiving a stream in pieces

A receiver feeds its decoder whatever has come and takes all messages at hand, up
to the first failure. How the stream was cut makes no difference: the messages, the
failure and what is left over depend on its octets alone, well formed or not.
-/

namespace Enlistment

open Wire

/-- A draft can be read in parts. -/
theorem Draft.read_feed (maxLength : Nat) (d : Draft) (src : Source) (bs : Bytes) :
    d.read maxLength (src.feed bs) =
      (d.read maxLength src).resume (fun d src => d.read maxLength src) bs := by
  obtain ⟨type, record⟩ := d
  have hfeed := (type.layout.resumable maxLength).feed record src bs
  simp only [Draft.read, hfeed]
  rcases type.layout.read maxLength record src with ⟨_ | _ | e, record', src'⟩ <;> rfl

/-- A draft only takes octets away. -/
theorem Draft.read_length_le (maxLength : Nat) (d : Draft) (src : Source) :
    (d.read maxLength src).source.input.length ≤ src.input.length :=
  (d.type.layout.resumable maxLength).length_le d.record src

/-- A message that is complete takes its header at least, if its frames were fresh. -/
theorem Draft.read_advance {maxLength : Nat} {d d' : Draft} {bs : Bytes} {src : Source}
    (h : d.read maxLength ⟨{}, bs⟩ = ⟨.advance, d', src⟩) :
    src.input.length + headerLength ≤ bs.length := by
  have hprogress := congrArg Reading.progress h
  have hle := d.type.layout.read_advance d.record ⟨{}, bs⟩ rfl hprogress
  rw [← show (d.read maxLength ⟨{}, bs⟩).source = src by rw [h]]
  exact hle

/-- What a receiver has got: the messages in order, whether it met a failure, and its decoder. -/
structure Received where
  messages : List Draft
  outcome : Except CodecError Unit
  decoder : Decoder

namespace Decoder

/-- Feeds pieces one by one and takes all messages at hand after each of them. Nothing is
fed any more after a failure. -/
def receive (d : Decoder) : List Bytes → Received
  | [] => ⟨[], .ok (), d⟩
  | piece :: rest =>
    match (d.feed piece).nextAll with
    | (messages, .error e, d) => ⟨messages, .error e, d⟩
    | (messages, .ok (), d) =>
      let r := d.receive rest
      ⟨messages ++ r.messages, r.outcome, r.decoder⟩

/-- Feeding no octets changes nothing. -/
@[simp] theorem feed_nil (d : Decoder) : d.feed [] = d := by simp [feed]

/-- Pieces can be fed as one. -/
theorem feed_append (d : Decoder) (xs ys : Bytes) : (d.feed xs).feed ys = d.feed (xs ++ ys) := by
  simp only [feed, List.append_assoc]

/-! ## One message -/

/-- The type of a message is known once its octets have come. -/
theorem start_feed {d : Decoder} (bs : Bytes) (h : d.start ≠ .ok none) :
    (d.feed bs).start = d.start := by
  unfold start at h ⊢
  cases hcurrent : d.current with
  | some draft => simp [feed, hcurrent]
  | none =>
    by_cases hshort : d.pending.length < 2
    · simp [hcurrent, hshort] at h
    · have hlen : 2 ≤ d.pending.length := by omega
      have hlen' : ¬ d.pending.length + bs.length < 2 := by omega
      simp [feed, hcurrent, hshort, hlen', List.take_append_of_le_length hlen]

/-- The state of a decoder whose call ended with the given reading. -/
def after (d : Decoder) : Reading Draft → Except CodecError (Option Draft) × Decoder
  | ⟨.failed e, draft, src⟩ => (.error e, { d with stack := src.stack, current := some draft })
  | ⟨.incomplete, draft, src⟩ =>
    (.ok none, { d with stack := src.stack, pending := src.input, current := some draft })
  | ⟨.advance, draft, src⟩ =>
    (.ok (some draft), { d with stack := {}, pending := src.input, current := none })

/-- A decoder that has started on a message ends as the reading of it does. -/
theorem next_of_start {d : Decoder} {draft : Draft} (h : d.start = .ok (some draft)) :
    d.next = d.after (draft.read d.maxLength ⟨d.stack, d.pending⟩) := by
  simp only [next, h]
  rcases draft.read d.maxLength ⟨d.stack, d.pending⟩ with ⟨_ | _ | e, draft', src⟩ <;> rfl

/-- What more octets can change about a call: nothing about a message or a failure it
found. After a failure the decoders differ in nothing but the octets they keep. -/
inductive Fed (bs : Bytes) :
    Except CodecError (Option Draft) × Decoder → Except CodecError (Option Draft) × Decoder → Prop
  | message (draft : Draft) (d : Decoder) :
      Fed bs (.ok (some draft), d) (.ok (some draft), d.feed bs)
  | failure (e : CodecError) (d d' : Decoder) : Fed bs (.error e, d) (.error e, d')
  | again {d : Decoder} {r : Except CodecError (Option Draft) × Decoder}
      (result : r.1 = (d.feed bs).next.1) (decoder : ∀ m, r.1 = .ok m → r.2 = (d.feed bs).next.2) :
      Fed bs (.ok none, d) r

/-- A call with more octets at hand comes to what it comes to if they follow later. -/
theorem next_feed (d : Decoder) (bs : Bytes) : Fed bs d.next (d.feed bs).next := by
  cases hstart : d.start with
  | error e =>
    have hfed : (d.feed bs).start = .error e := by
      rw [start_feed bs (by simp [hstart]), hstart]
    simp only [next, hstart, hfed]
    exact .failure e _ _
  | ok m =>
    cases m with
    | none =>
      simp only [next, hstart]
      exact .again rfl fun _ _ => rfl
    | some draft =>
      have hfed : (d.feed bs).start = .ok (some draft) := by
        rw [start_feed bs (by simp [hstart]), hstart]
      have hread := draft.read_feed d.maxLength ⟨d.stack, d.pending⟩ bs
      rw [next_of_start hstart, next_of_start hfed]
      rw [show (draft.read (d.feed bs).maxLength ⟨(d.feed bs).stack, (d.feed bs).pending⟩) =
        draft.read d.maxLength (Source.feed ⟨d.stack, d.pending⟩ bs) from rfl, hread]
      rcases draft.read d.maxLength ⟨d.stack, d.pending⟩ with ⟨_ | _ | e, draft', src⟩
      · exact .message draft' _
      · -- the suspended decoder has started on the draft it keeps
        let kept : Decoder :=
          { d with stack := src.stack, pending := src.input, current := some draft' }
        have hagain : (kept.feed bs).start = .ok (some draft') := rfl
        refine .again (d := kept) ?_ ?_ <;> rw [next_of_start hagain] <;>
          simp only [Reading.resume, feed, Source.feed] <;>
          rcases draft'.read d.maxLength ⟨src.stack, src.input ++ bs⟩ with
            ⟨_ | _ | e, draft'', src'⟩
        all_goals simp [after, kept]
      · exact .failure e _ _

/-! ## All messages at hand -/

/-- Calling for messages until there is none or a failure, however often it takes. -/
inductive Drains : Decoder → List Draft → Except CodecError Unit → Decoder → Prop
  | dry {d d' : Decoder} (h : d.next = (.ok none, d')) : Drains d [] (.ok ()) d'
  | failure {d d' : Decoder} {e : CodecError} (h : d.next = (.error e, d')) :
      Drains d [] (.error e) d'
  | message {d d' d'' : Decoder} {draft : Draft} {messages : List Draft}
      {outcome : Except CodecError Unit} (h : d.next = (.ok (some draft), d'))
      (rest : Drains d' messages outcome d'') : Drains d (draft :: messages) outcome d''

/-- There is only one way to call for all messages. -/
theorem Drains.unique {d d₁ d₂ : Decoder} {ms₁ ms₂ : List Draft}
    {r₁ r₂ : Except CodecError Unit} (h₁ : Drains d ms₁ r₁ d₁) (h₂ : Drains d ms₂ r₂ d₂) :
    ms₁ = ms₂ ∧ r₁ = r₂ ∧ d₁ = d₂ := by
  induction h₁ generalizing ms₂ with
  | dry h =>
    cases h₂ with
    | dry h' => simp_all
    | failure h' => simp_all
    | message h' => simp_all
  | failure h =>
    cases h₂ with
    | dry h' => simp_all
    | failure h' => simp_all
    | message h' => simp_all
  | message h rest ih =>
    cases h₂ with
    | dry h' => simp_all
    | failure h' => simp_all
    | message h' rest' =>
      rw [h] at h'
      obtain ⟨hdraft, hd⟩ : _ ∧ _ := by simpa using h'
      subst hdraft hd
      obtain ⟨hms, hr, hd⟩ := ih rest'
      exact ⟨by rw [hms], hr, hd⟩

/-- A decoder between two messages. -/
def Idle (d : Decoder) : Prop := d.stack = {} ∧ d.current = none

/-- A message is found by a reading that completes it. -/
theorem next_message {d d' : Decoder} {draft : Draft} (h : d.next = (.ok (some draft), d')) :
    ∃ (draft' : Draft) (src : Source),
      draft'.read d.maxLength ⟨d.stack, d.pending⟩ = ⟨.advance, draft, src⟩ ∧
      d' = { d with stack := {}, pending := src.input, current := none } := by
  cases hstart : d.start with
  | error e => simp [next, hstart] at h
  | ok m =>
    cases m with
    | none => simp [next, hstart] at h
    | some draft' =>
      refine ⟨draft', (draft'.read d.maxLength ⟨d.stack, d.pending⟩).source, ?_⟩
      rw [next_of_start hstart] at h
      rcases hr : draft'.read d.maxLength ⟨d.stack, d.pending⟩ with ⟨_ | _ | e, m, src⟩
      · simp only [hr, after, Prod.mk.injEq, Except.ok.injEq, Option.some.injEq] at h
        exact ⟨by rw [h.1], h.2.symm⟩
      · simp [hr, after] at h
      · simp [hr, after] at h

/-- After a message the decoder is between two messages. -/
theorem next_idle {d d' : Decoder} {draft : Draft} (h : d.next = (.ok (some draft), d')) :
    d'.Idle := by
  obtain ⟨draft', src, hr, rfl⟩ := next_message h
  exact ⟨rfl, rfl⟩

/-- No message takes octets that are not there. -/
theorem next_length_le {d d' : Decoder} {draft : Draft} (h : d.next = (.ok (some draft), d')) :
    d'.pending.length ≤ d.pending.length := by
  obtain ⟨draft', src, hr, rfl⟩ := next_message h
  have hle := draft'.read_length_le d.maxLength ⟨d.stack, d.pending⟩
  rwa [hr] at hle

/-- Between two messages every message takes octets. -/
theorem next_length_lt {d d' : Decoder} {draft : Draft} (hidle : d.Idle)
    (h : d.next = (.ok (some draft), d')) : d'.pending.length < d.pending.length := by
  obtain ⟨draft', src, hr, rfl⟩ := next_message h
  rw [hidle.1] at hr
  have hlen := Draft.read_advance hr
  simp only [headerLength] at hlen
  show src.input.length < d.pending.length
  omega

/-- Between two messages the octets at hand bound the number of calls. -/
theorem drain_drains {d : Decoder} (fuel : Nat) (hidle : d.Idle) (hfuel : d.pending.length < fuel) :
    Drains d (drain fuel d).1 (drain fuel d).2.1 (drain fuel d).2.2 := by
  induction fuel generalizing d with
  | zero => omega
  | succ fuel ih =>
    unfold drain
    split
    · next e d' h => exact .failure h
    · next d' h => exact .dry h
    · next draft d' h =>
      have hlt := next_length_lt hidle h
      exact .message h (ih (next_idle h) (by omega))

/-- The messages at hand are all there are: the bound on their number is never reached. -/
theorem nextAll_drains (d : Decoder) : Drains d d.nextAll.1 d.nextAll.2.1 d.nextAll.2.2 := by
  unfold nextAll drain
  split
  · next e d' h => exact .failure h
  · next d' h => exact .dry h
  · next draft d' h =>
    have hle := next_length_le h
    exact .message h (drain_drains _ (next_idle h) (by omega))

/-! ## Pieces -/

/-- Taking all messages and then all messages behind more octets gives what taking all
messages at once gives. -/
theorem Drains.feed {d d' d'' : Decoder} {bs : Bytes} {ms ms' : List Draft}
    {r : Except CodecError Unit} (h : Drains d ms (.ok ()) d')
    (h' : Drains (d'.feed bs) ms' r d'') :
    ∃ last, Drains (d.feed bs) (ms ++ ms') r last ∧ (r = .ok () → last = d'') := by
  generalize hok : (Except.ok () : Except CodecError Unit) = ok at h
  induction h with
  | @dry d d' h =>
    have hfed := next_feed d bs
    rw [h] at hfed
    cases hfed with
    | again result decoder =>
      cases h' with
      | dry h' =>
        have hnext : (d.feed bs).next = (.ok none, d'') :=
          Prod.ext (by rw [result, h']) (by rw [decoder _ (by rw [result, h']), h'])
        exact ⟨d'', .dry hnext, fun _ => rfl⟩
      | @failure _ _ e h' =>
        have hnext : (d.feed bs).next = (.error e, (d.feed bs).next.2) :=
          Prod.ext (by rw [result, h']) rfl
        exact ⟨_, .failure hnext, fun hr => by simp at hr⟩
      | @message _ d₁ _ draft _ _ h' rest =>
        have hnext : (d.feed bs).next = (.ok (some draft), d₁) :=
          Prod.ext (by rw [result, h']) (by rw [decoder _ (by rw [result, h']), h'])
        exact ⟨d'', .message hnext rest, fun _ => rfl⟩
  | failure h => cases hok
  | @message d d₁ d₂ draft messages outcome h rest ih =>
    obtain ⟨last, hlast, heq⟩ := ih h' hok
    have hfed := next_feed d bs
    rw [h] at hfed
    generalize hnext : (d.feed bs).next = next at hfed
    cases hfed with
    | message => exact ⟨last, .message hnext hlast, heq⟩

/-- A failure among the messages at hand stays where it is when more octets come. -/
theorem Drains.feed_failure {d d' : Decoder} {ms : List Draft} {e : CodecError}
    (h : Drains d ms (.error e) d') (bs : Bytes) :
    ∃ last, Drains (d.feed bs) ms (.error e) last := by
  generalize herror : (Except.error e : Except CodecError Unit) = error at h
  induction h with
  | dry h => cases herror
  | @failure d d' e' h =>
    have hfed := next_feed d bs
    rw [h] at hfed
    generalize hnext : (d.feed bs).next = next at hfed
    cases hfed with
    | failure e d₁ d₂ => exact ⟨d₂, .failure hnext⟩
  | @message d d₁ d₂ draft messages outcome h rest ih =>
    obtain ⟨last, hlast⟩ := ih herror
    have hfed := next_feed d bs
    rw [h] at hfed
    generalize hnext : (d.feed bs).next = next at hfed
    cases hfed with
    | message => exact ⟨last, .message hnext hlast⟩

/-- A receiver that has already taken some messages gets those of the whole stream. The
induction is on the pieces, and what has been fed so far grows with it. -/
theorem receive_drains (pieces : List Bytes) {first d : Decoder} {ms : List Draft}
    (h : Drains first ms (.ok ()) d) :
    ∃ last, Drains (first.feed pieces.flatten) (ms ++ (d.receive pieces).messages)
        (d.receive pieces).outcome last ∧
      ((d.receive pieces).outcome = .ok () → last = (d.receive pieces).decoder) := by
  induction pieces generalizing first d ms with
  | nil => exact ⟨d, by simpa [receive] using h, fun _ => rfl⟩
  | cons piece rest ih =>
    have hpiece := nextAll_drains (d.feed piece)
    unfold receive
    rcases hall : (d.feed piece).nextAll with ⟨messages, _ | _, d'⟩ <;> rw [hall] at hpiece
    · next e =>
      obtain ⟨last, hlast, -⟩ := h.feed hpiece
      obtain ⟨last', hlast'⟩ := hlast.feed_failure rest.flatten
      rw [feed_append] at hlast'
      exact ⟨last', hlast', fun hr => by simp at hr⟩
    · obtain ⟨last, hlast, heq⟩ := h.feed hpiece
      obtain rfl := heq rfl
      obtain ⟨last', hlast', heq'⟩ := ih hlast
      rw [feed_append, List.append_assoc] at hlast'
      exact ⟨last', hlast', heq'⟩

/-- A receiver gets the messages of a stream that has no failure, however the stream was cut. -/
theorem receive_of_drains {accepted : List MessageType} {maxLength : Nat} {pieces : List Bytes}
    {messages : List Draft} {d : Decoder}
    (h : Drains { accepted, maxLength, pending := pieces.flatten } messages (.ok ()) d) :
    receive { accepted, maxLength } pieces = ⟨messages, .ok (), d⟩ := by
  have hfirst : Drains { accepted, maxLength } [] (.ok ()) { accepted, maxLength } := .dry rfl
  obtain ⟨last, hlast, heq⟩ := receive_drains pieces hfirst
  obtain ⟨hmessages, houtcome, rfl⟩ := hlast.unique h
  have hdecoder := heq houtcome
  rcases hreceived : receive { accepted, maxLength } pieces with ⟨found, outcome, decoder⟩
  rw [hreceived] at hmessages houtcome hdecoder
  obtain rfl : found = messages := hmessages
  obtain rfl : outcome = .ok () := houtcome
  rw [hdecoder]

/-- A receiver gets the messages before the failure in a stream and this failure, however the
stream was cut. -/
theorem receive_of_drains_error {accepted : List MessageType} {maxLength : Nat}
    {pieces : List Bytes} {messages : List Draft} {e : CodecError} {d : Decoder}
    (h : Drains { accepted, maxLength, pending := pieces.flatten } messages (.error e) d) :
    ∃ last, receive { accepted, maxLength } pieces = ⟨messages, .error e, last⟩ := by
  have hfirst : Drains { accepted, maxLength } [] (.ok ()) { accepted, maxLength } := .dry rfl
  obtain ⟨last, hlast, -⟩ := receive_drains pieces hfirst
  obtain ⟨hmessages, houtcome, -⟩ := hlast.unique h
  rcases hreceived : receive { accepted, maxLength } pieces with ⟨found, outcome, decoder⟩
  rw [hreceived] at hmessages houtcome
  obtain rfl : found = messages := hmessages
  obtain rfl : outcome = .error e := houtcome
  exact ⟨decoder, rfl⟩

/-- What a receiver gets does not depend on how the stream was cut: the messages up to the
first failure and the failure are those of the whole stream fed at once, and without a
failure so is the decoder, with the same octets left over. -/
theorem receive_eq_receive_flatten (accepted : List MessageType) (maxLength : Nat)
    (pieces : List Bytes) :
    let parts := receive { accepted, maxLength } pieces
    let whole := receive { accepted, maxLength } [pieces.flatten]
    parts.messages = whole.messages ∧ parts.outcome = whole.outcome ∧
      (parts.outcome = .ok () → parts.decoder = whole.decoder) := by
  intro parts whole
  have hfirst : Drains { accepted, maxLength } [] (.ok ()) { accepted, maxLength } := .dry rfl
  obtain ⟨last, hlast, heq⟩ := receive_drains pieces hfirst
  obtain ⟨last', hlast', heq'⟩ := receive_drains [pieces.flatten] hfirst
  rw [List.flatten_singleton] at hlast'
  obtain ⟨hmessages, houtcome, hdecoder⟩ := hlast.unique hlast'
  refine ⟨hmessages, houtcome, fun hok => ?_⟩
  have hparts : last = parts.decoder := heq hok
  have hwhole : last' = whole.decoder := heq' (houtcome.symm.trans hok)
  rw [← hparts, ← hwhole, hdecoder]

end Decoder

end Enlistment
