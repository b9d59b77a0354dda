import Enlistment.Proofs.Message.Records
import Enlistment.Proofs.Stream.Chunking
import Enlistment.Proofs.Stream.Receiving

/-!
# Receiving canonical octets

What a decoder takes for a message spells it. If the octets are canonical, the message is encoded
to the same octets again, so a decoder forgets nothing about canonical octets.
-/

namespace Enlistment

open Wire

variable {σ : Type}

/-- Whether some octets are one message of a type and are in canonical form: every truth value
is 0 or 1, no header carries a flag but that of a request, and nothing is absent that would not
stay absent. -/
def MessageType.canonical (t : MessageType) (bs : Bytes) : Bool :=
  t.layout.canonicalRest? bs == some []

namespace Decoder

/-- A message found between two messages is spelled by the octets that are gone. -/
theorem next_spells {d d' : Decoder} {draft : Draft} (hidle : d.Idle)
    (h : d.next = (.ok (some draft), d')) :
    ∃ bs, d.pending = bs ++ d'.pending ∧
      draft.type.layout.Spells (min d.maxLength maxWireLength) draft.record bs := by
  obtain ⟨hstack, hcurrent⟩ := hidle
  obtain ⟨t, hstart⟩ : ∃ t, d.start = .ok (some (.blank t)) := by
    cases hstart : d.start with
    | error e => simp [next, hstart] at h
    | ok m =>
      cases m with
      | none => simp [next, hstart] at h
      | some blank =>
        simp only [start, hcurrent] at hstart
        split at hstart
        · cases hstart
        · split at hstart
          · cases hstart
          · next t _ => exact ⟨t, hstart.symm⟩
  have hparses := t.layout.parses d.maxLength t.layout_handsOver
  rw [next_of_start hstart, hstack] at h
  rcases hread : t.layout.read d.maxLength t.layout.blank ⟨{}, d.pending⟩ with
    ⟨_ | _ | e, record, src⟩ <;>
    simp only [Draft.read, Draft.blank, hread, Reading.map, after, Prod.mk.injEq, Except.ok.injEq,
      Option.some.injEq, reduceCtorEq, false_and] at h
  obtain ⟨rfl, rfl⟩ := h
  obtain ⟨bs, hbs, hspells, -⟩ := hparses _ _ _ .empty hread
  exact ⟨bs, hbs, hspells⟩

/-- A call that finds no message and does not start on one leaves the decoder as it was. -/
theorem next_none {d d' : Decoder} (h : d.next = (.ok none, d')) (hcurrent : d'.current = none) :
    d' = d := by
  cases hstart : d.start with
  | error e => simp [next, hstart] at h
  | ok m =>
    cases m with
    | none =>
      simp only [next, hstart, Prod.mk.injEq, true_and] at h
      exact h.symm
    | some draft =>
      rw [next_of_start hstart] at h
      rcases hr : draft.read d.maxLength ⟨d.stack, d.pending⟩ with ⟨_ | _ | e, found, src⟩ <;>
        simp only [hr, after, Prod.mk.injEq, Except.ok.injEq, reduceCtorEq, false_and,
          true_and] at h
      rw [← h] at hcurrent
      cases hcurrent

variable {accepted : List MessageType} {maxLength : Nat} {pieces : List Bytes} {draft : Draft}

/-- Octets that are received as exactly one message spell it. -/
theorem receive_spells
    (h : receive { accepted, maxLength } pieces = ⟨[draft], .ok (), { accepted, maxLength }⟩) :
    draft.type.layout.Spells (min maxLength maxWireLength) draft.record pieces.flatten := by
  have hfirst : Drains { accepted, maxLength } [] (.ok ()) { accepted, maxLength } := .dry rfl
  obtain ⟨last, hlast, heq⟩ := receive_drains pieces hfirst
  rw [h] at hlast heq
  obtain rfl := heq rfl
  cases hlast with
  | @message _ d' _ _ _ _ hnext hrest =>
    obtain ⟨bs, hbs, hspells⟩ := next_spells ⟨rfl, rfl⟩ hnext
    have hpending : pieces.flatten = bs ++ d'.pending := hbs
    cases hrest with
    | dry hdry =>
      have hempty : d'.pending = [] := congrArg pending (next_none hdry rfl).symm
      rw [hpending, hempty, List.append_nil]
      exact hspells

/-- Octets that are received as exactly one message are canonical if and only if they are its
encoding and its record is regular. -/
theorem canonical_iff
    (h : receive { accepted, maxLength } pieces = ⟨[draft], .ok (), { accepted, maxLength }⟩) :
    draft.type.canonical pieces.flatten = true ↔
      draft.encode = pieces.flatten ∧ draft.type.layout.Regular draft.record := by
  have hspells := receive_spells h
  have hlawful := draft.type.layout_lawful
  have hwithin : draft.type.layout.Within maxWireLength draft.record :=
    (draft.type.layout.within_of_spells _ _ hspells).mono (Nat.min_le_right _ _)
  simp only [MessageType.canonical, beq_iff_eq]
  constructor
  · intro hcanonical
    have hskips := draft.type.layout.skips (Nat.min_le_right _ _) hlawful _ _ hspells [] []
    rw [List.append_nil] at hskips
    exact (hskips hcanonical).2
  · rintro ⟨hencode, hregular⟩
    have hrest := draft.type.layout.canonicalRest?_encode hlawful hregular hwithin []
    rwa [List.append_nil, show draft.type.layout.encode draft.record = pieces.flatten from hencode]
      at hrest

/-- Octets in canonical form that are received as exactly one message are what it is encoded to,
through any buffer. So no other canonical octets are received as the same message, by whichever
decoder. -/
theorem canonical_octets_kept
    (h : receive { accepted, maxLength } pieces = ⟨[draft], .ok (), { accepted, maxLength }⟩)
    (hcanonical : draft.type.canonical pieces.flatten = true) :
    (∀ chunk, (Message.ofDraft draft : Message σ).toDraft.encodeChunked chunk =
      .ok pieces.flatten) ∧
    ∀ (accepted' : List MessageType) (maxLength' : Nat) (pieces' : List Bytes) (draft' : Draft),
      receive { accepted := accepted', maxLength := maxLength' } pieces' =
        ⟨[draft'], .ok (), { accepted := accepted', maxLength := maxLength' }⟩ →
      draft'.type.canonical pieces'.flatten = true → pieces'.flatten ≠ pieces.flatten →
      (Message.ofDraft draft' : Message σ) ≠ Message.ofDraft draft := by
  have hencoded : ∀ {accepted : List MessageType} {maxLength : Nat} {pieces : List Bytes}
      {draft : Draft}, receive { accepted, maxLength } pieces =
        ⟨[draft], .ok (), { accepted, maxLength }⟩ →
      draft.type.canonical pieces.flatten = true → ∀ chunk,
      (Message.ofDraft draft : Message σ).toDraft.encodeChunked chunk = .ok pieces.flatten := by
    intro accepted maxLength pieces draft h hcanonical chunk
    obtain ⟨hencode, hregular⟩ := (canonical_iff h).mp hcanonical
    have hwithin : draft.type.layout.Within maxWireLength draft.record :=
      (draft.type.layout.within_of_spells _ _ (receive_spells h)).mono (Nat.min_le_right _ _)
    rw [Message.toDraft_ofDraft hregular,
      (Draft.accepted_of_prepared hregular.prepared hwithin).encodeChunked_eq chunk, hencode]
  refine ⟨hencoded h hcanonical,
    fun accepted' maxLength' pieces' draft' h' hcanonical' hne heq => ?_⟩
  have hsame := hencoded h' hcanonical' 0
  rw [heq, hencoded h hcanonical 0] at hsame
  exact hne (Except.ok.inj hsame).symm

/-- A filter with an operand and an absent class, cut within the header of its operand. -/
theorem canonical_filter_kept :
    let octets : Bytes :=
      [98, 0, 1, 0, 3, 0, 2, 89, 0, 1, 0, 1, 0, 1, 0, 0, 0, 7, 255, 255, 255, 255]
    let draft : Draft := ⟨.filter, ⟨0, 2, some ⟨0, some [7], ()⟩, {}, ()⟩⟩
    let pieces := [octets.take 9, octets.drop 9]
    receive { accepted := MessageType.all, maxLength := 8 } pieces =
        ⟨[draft], .ok (), { accepted := MessageType.all, maxLength := 8 }⟩ ∧
      draft.type.canonical pieces.flatten = true ∧
      ∀ chunk, (Message.ofDraft draft : Message Unit).toDraft.encodeChunked chunk = .ok octets := by
  intro octets draft pieces
  have hsound : filterLayout.Sound draft.record := by
    simp [draft, filterLayout, valueLayout, Layout.plain, Layout.Sound, Fields.Arrives,
      Field.Arrives, Fields.arrived, Field.arrived, ordinalAllowed, checkFilter]
    decide
  have hwithin : ∀ limit, 1 ≤ limit → filterLayout.Within limit draft.record := by
    intro limit hlimit
    simp [draft, filterLayout, valueLayout, Layout.plain, Layout.Within, Fields.Within,
      Field.Within, hlimit]
  have hlegible : draft.Legible MessageType.all 8 :=
    ⟨by decide, hsound, hwithin _ (by decide), hwithin _ (by decide)⟩
  have hencoded : pieces.flatten = draft.encode := by decide
  have hreceived := receive_encoding hlegible hencoded
  have hcanonical : draft.type.canonical pieces.flatten = true := by decide +kernel
  exact ⟨hreceived, hcanonical, (canonical_octets_kept hreceived hcanonical).1⟩

end Decoder

end Enlistment
