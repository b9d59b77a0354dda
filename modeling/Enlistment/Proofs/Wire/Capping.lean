import Enlistment.Proofs.Wire.Caps
import Enlistment.Proofs.Wire.Settling

/-!
# Reading keeps to the limit

Every call, whether it completes, runs out of octets or fails, leaves a record that is capped
where the call stopped. So a reader may be called on after any failure, with whatever octets.
-/

namespace Enlistment.Wire

/-- What a call leaves: frames that keep no length beyond the limit, and a slot that is capped
where the call stopped, and as a complete one if the call completed. -/
structure Reading.Capped {A : Type} (limit : Nat) (capped : Option Place → A → Prop)
    (r : Reading A) : Prop where
  stack : r.source.stack.Capped limit
  slot : capped (some r.source.stack.place) r.slot
  complete : r.progress.isAdvance = true → capped none r.slot

/-- A reader that leaves slots capped that are capped where it starts. -/
def KeepsCaps {A : Type} (limit : Nat) (capped : Option Place → A → Prop)
    (read : A → Source → Reading A) : Prop :=
  ∀ slot src, src.stack.Capped limit → capped (some src.stack.place) slot →
    (read slot src).Capped limit capped

variable {limit : Nat}

/-- A call that stopped has not completed its slot. -/
theorem Reading.Capped.stopped {A : Type} {capped : Option Place → A → Prop} {r : Reading A}
    (hstop : r.progress.isAdvance = false) (hstack : r.source.stack.Capped limit)
    (hslot : capped (some r.source.stack.place) r.slot) : r.Capped limit capped :=
  ⟨hstack, hslot, fun h => absurd (hstop.symm.trans h) Bool.false_ne_true⟩

/-- A slot that is part of a larger one. -/
theorem Reading.Capped.map {A B : Type} {capped : Option Place → A → Prop}
    {capped' : Option Place → B → Prop} {r : Reading A} (h : r.Capped limit capped) (f : A → B)
    (hf : ∀ place a, capped place a → capped' place (f a)) : (r.map f).Capped limit capped' :=
  ⟨h.stack, hf _ _ h.slot, fun hadvance => hf _ _ (h.complete hadvance)⟩

/-! ## Units -/

/-- A unit without a length. -/
theorem KeepsCaps.fixed {A : Type} (width : Nat) (decode : Bytes → A) :
    KeepsCaps limit (fun _ _ => True) (readFixed width decode) := by
  intro slot src hs _
  have hstack : (readFixed width decode slot src).source.stack = src.stack := by
    unfold readFixed
    split <;> rfl
  exact ⟨hstack ▸ hs, trivial, fun _ => trivial⟩

/-- An ordinal. -/
theorem KeepsCaps.ordinal (name : String) (count : Nat) (optional : Bool) :
    KeepsCaps limit (fun _ _ => True) (readOrdinal name count optional) := by
  intro slot src hs _
  have hoctet : KeepsCaps limit (fun _ _ => True) readInt8 := .fixed 1 _
  refine ⟨?_, trivial, fun _ => trivial⟩
  dsimp only [readOrdinal]
  split <;> exact (hoctet slot src hs trivial).stack

/-- A unit behind its length, if its contents keep to a length that is known. -/
theorem KeepsCaps.readSized {A : Type} {capped : Option Place → A → Prop} {empty : A}
    {fill : Nat → A → Source → Reading A} (hempty : ∀ place, capped place empty)
    (hfill : ∀ a src, src.stack.Capped limit → src.stack.top.fieldStarted = true →
      capped (some src.stack.place) a → (fill src.stack.top.length a src).Capped limit capped)
    (what : String) :
    KeepsCaps limit (fun place slot => ∀ a, slot = some a → capped place a)
      (readSized limit what empty fill) := by
  have hresume : ∀ slot src, src.stack.Capped limit → src.stack.top.fieldStarted = true →
      (∀ a, slot = some a → capped (some src.stack.place) a) →
      (resumeSized what fill slot src).Capped limit
        fun place slot => ∀ a, slot = some a → capped place a := by
    intro slot src hs hstarted hslot
    cases slot with
    | none => exact .stopped rfl hs forall_of_none
    | some a =>
      refine (hfill a src hs hstarted (hslot a rfl)).map some fun place a h a' ha' => ?_
      rwa [← Option.some.inj ha']
  intro slot src hs hslot
  unfold Wire.readSized
  by_cases hstarted : src.stack.top.fieldStarted = true
  · rw [if_pos hstarted]
    exact hresume slot src hs hstarted hslot
  · rw [if_neg hstarted]
    split
    · exact .stopped rfl hs hslot
    · next hlong =>
      have hlen : (src.input.take 4).length = 4 := by
        rw [List.length_take]
        omega
      split
      · exact .stopped rfl hs hslot
      · exact ⟨hs, forall_of_none, fun _ => forall_of_none⟩
      · next length hlength =>
        have hle : length ≤ limit :=
          Nat.le_trans ((decodeLength_ok hlen hlength).2 length rfl) (Nat.min_le_left ..)
        refine hresume _ _ ⟨hs.outer, hle, hs.deeper⟩ rfl fun a ha => ?_
        rw [← Option.some.inj ha]
        exact hempty _

/-- Octets are added up to their declared length. -/
theorem fillBytes_capped {bs : Bytes} {src : Source} (hs : src.stack.Capped limit)
    (hstarted : src.stack.top.fieldStarted = true)
    (hbs : CappedOctets limit (some src.stack.place) bs) :
    (fillBytes src.stack.top.length bs src).Capped limit (CappedOctets limit) := by
  have hle : bs.length ≤ src.stack.top.length := hbs.2 _ (declaredLength_started hstarted)
  have hfilled : (fillBytes src.stack.top.length bs src).slot.length ≤ src.stack.top.length := by
    simp only [fillBytes, if_neg (Nat.not_lt.mpr hle), List.length_append, List.length_take]
    omega
  have hslot : CappedOctets limit (some src.stack.place)
      (fillBytes src.stack.top.length bs src).slot := by
    refine ⟨Nat.le_trans hfilled hs.top, fun n hn => ?_⟩
    rw [declaredLength_started hstarted] at hn
    rwa [← Option.some.inj hn]
  exact ⟨hs, hslot, fun _ => hslot.complete⟩

/-- A byte string. -/
theorem KeepsCaps.readBytes :
    KeepsCaps limit (fun place slot => ∀ bs, slot = some bs → CappedOctets limit place bs)
      (readBytes limit) :=
  .readSized (fun _ => ⟨Nat.zero_le _, fun _ _ => Nat.zero_le _⟩)
    (fun _ _ hs hstarted h => fillBytes_capped hs hstarted h) _

/-- An array of numbers. The length in the frame is enough of a bound for it. -/
theorem KeepsCaps.readLongs :
    KeepsCaps limit (fun _ slot => ∀ items, slot = some items → items.length ≤ limit)
      (readLongs limit) := by
  have hfill : ∀ (items : List Int64) (src : Source), src.stack.Capped limit →
      src.stack.top.fieldStarted = true → items.length ≤ limit →
      (fillLongs src.stack.top.length items src).Capped limit
        fun _ items => items.length ≤ limit := by
    intro items src hs _ h
    have htop := hs.top
    have hfilled : (fillLongs src.stack.top.length items src).slot.length ≤ limit := by
      simp only [fillLongs, List.length_append, length_takeLongs]
      omega
    exact ⟨hs, hfilled, fun _ => hfilled⟩
  refine .readSized (fun _ => ?_) hfill _
  exact Nat.zero_le _

/-- Octets that are taken for text are as long as the text. -/
theorem KeepsCaps.readText : KeepsCaps limit (TextSlot.Capped limit) (readText limit) := by
  intro slot src hs hslot
  have hbytes := KeepsCaps.readBytes slot.staged src hs hslot.1
  unfold Wire.readText
  rcases hr : Wire.readBytes limit slot.staged src with ⟨_ | _ | e, _ | bs, src'⟩ <;>
    rw [hr] at hbytes
  · exact ⟨hbytes.stack, ⟨forall_of_none, forall_of_none⟩,
      fun _ => ⟨forall_of_none, forall_of_none⟩⟩
  · dsimp only
    cases htext : bs.toText? with
    | none =>
      exact .stopped rfl hbytes.stack ⟨forall_of_none, hslot.2⟩
    | some text =>
      have hcapped : ∀ place, TextSlot.Capped limit place ⟨none, some text⟩ := by
        refine fun place => ⟨forall_of_none, fun s hs => ?_⟩
        obtain rfl := Option.some.inj hs
        rw [Bytes.ofText_of_toText? htext]
        exact (hbytes.slot bs rfl).1
      exact ⟨hbytes.stack, hcapped _, fun _ => hcapped _⟩
  all_goals exact .stopped rfl hbytes.stack ⟨hbytes.slot, hslot.2⟩

/-- A text field. -/
theorem KeepsCaps.readTextField (onNull : NullText) :
    KeepsCaps limit (TextSlot.Capped limit) (readTextField limit onNull) := by
  intro slot src hs hslot
  have htext := KeepsCaps.readText ⟨slot.staged, none⟩ src hs ⟨hslot.1, forall_of_none⟩
  unfold Wire.readTextField
  rcases hr : Wire.readText limit ⟨slot.staged, none⟩ src with
    ⟨_ | _ | e, ⟨staged, _ | text⟩, src'⟩ <;> rw [hr] at htext
  · have hcomplete := htext.complete rfl
    cases onNull with
    | keep => exact htext
    | blank =>
      have hempty : ∀ s, some "" = some s → (Bytes.ofText s).length ≤ limit := by
        intro s hs
        obtain rfl := Option.some.inj hs
        exact Nat.zero_le _
      exact ⟨htext.stack, ⟨htext.slot.1, hempty⟩, fun _ => ⟨hcomplete.1, hempty⟩⟩
    | refuse fault => exact .stopped rfl htext.stack ⟨htext.slot.1, hslot.2⟩
  · exact htext
  all_goals exact .stopped rfl htext.stack ⟨htext.slot.1, hslot.2⟩

/-! ## Nested messages -/

section

variable {R : Type} {create : UInt16 → Option R} {read : R → Source → Reading R}
  {capped : Option Place → R → Prop}

/-- Coming to the end of a nested message, or stopping in it. -/
theorem readNested_capped (hread : Resumable FrameStack.SameOuter read)
    (h : KeepsCaps limit capped read) {message : R} {src : Source} (hs : src.stack.Capped limit)
    (hmessage : capped (some src.stack.enter.place) message) :
    let r := readNested read message src
    r.source.stack.Capped limit ∧ (r.progress.isAdvance = true → capped none r.slot) ∧
      (r.progress.isAdvance = false → capped (some r.source.stack.enter.place) r.slot) := by
  have hkeeps := hread.keeps message { src with stack := src.stack.enter }
  have hcapped := h message { src with stack := src.stack.enter } hs.enter hmessage
  refine ⟨hcapped.stack.leave _, hcapped.complete, fun hstopped => ?_⟩
  have hslot := hcapped.slot
  simp only [readNested] at hstopped ⊢
  rw [hstopped, FrameStack.enter_leave hkeeps]
  exact hslot

/-- A message that has been announced. -/
theorem resumeMessage_capped (hread : Resumable FrameStack.SameOuter read)
    (h : KeepsCaps limit capped read) {slot : Option R} {src : Source}
    (hs : src.stack.Capped limit) (hstarted : src.stack.top.messageStarted = true)
    (hslot : CappedMessage capped (some src.stack.place) slot) :
    (resumeMessage read slot src).Capped limit (CappedMessage capped) := by
  cases slot with
  | none => exact .stopped rfl hs forall_of_none
  | some message =>
    have hmessage := hslot message rfl
    rw [nestedPlace_started hstarted] at hmessage
    obtain ⟨hs', hdone, hstopped⟩ := readNested_capped hread h hs hmessage
    have htop := (readNested_stack hread message src).2
    simp only [resumeMessage]
    cases hadvance : (readNested read message src).progress.isAdvance with
    | true =>
      have hcomplete : ∀ m, some (readNested read message src).slot = some m → capped none m := by
        intro m hm
        rw [← Option.some.inj hm]
        exact hdone hadvance
      exact ⟨⟨hs'.outer, hs'.top, hs'.deeper⟩, hcomplete, fun _ => hcomplete⟩
    | false =>
      refine ⟨hs', fun m hm => ?_, fun hcontra => absurd hcontra (by simp [hadvance])⟩
      rw [← Option.some.inj hm]
      have hstarted' : (readNested read message src).source.stack.top.messageStarted = true := by
        rw [htop, hstarted]
      simp only [Bool.false_eq_true, if_false]
      rw [nestedPlace_started hstarted']
      exact hstopped hadvance

variable (hread : Resumable FrameStack.SameOuter read) (h : KeepsCaps limit capped read)
  (hcreate : ∀ type message, create type = some message → ∀ place, capped place message)
include hread h hcreate

/-- A message that may be absent. -/
theorem KeepsCaps.readMessage :
    KeepsCaps limit (CappedMessage capped) (readMessage create read) := by
  intro slot src hs hslot
  unfold Wire.readMessage
  split
  · next hstarted => exact resumeMessage_capped hread h hs hstarted hslot
  · split
    · exact .stopped rfl hs hslot
    · dsimp only
      split
      · exact ⟨hs, forall_of_none, fun _ => forall_of_none⟩
      · split
        · exact .stopped rfl hs hslot
        · next message hmessage =>
          refine resumeMessage_capped hread h ⟨hs.outer, hs.top, hs.deeper⟩ rfl fun m hm => ?_
          rw [← Option.some.inj hm]
          exact hcreate _ message hmessage _

/-- A message that must be there. -/
theorem KeepsCaps.readRequired {blank : R} (hblank : ∀ place, capped place blank)
    (field : String) :
    KeepsCaps limit (fun place => capped (nestedPlace place))
      (readRequired create blank read field) := by
  intro slot src hs hslot
  have hmessage := KeepsCaps.readMessage hread h hcreate (some slot) src hs fun m hm => by
    rwa [← Option.some.inj hm]
  unfold Wire.readRequired
  rcases hr : Wire.readMessage create read (some slot) src with ⟨_ | _ | e, _ | found, src'⟩ <;>
    rw [hr] at hmessage
  · exact .stopped rfl hmessage.stack (hblank _)
  · exact ⟨hmessage.stack, hmessage.slot found rfl, fun _ => hmessage.complete rfl found rfl⟩
  · exact .stopped rfl hmessage.stack (hblank _)
  · exact .stopped rfl hmessage.stack (hmessage.slot found rfl)
  all_goals exact .stopped rfl hmessage.stack (hblank _)

end

/-! ## Arrays of messages -/

section

variable {R : Type} {create : UInt16 → Option R} {read : R → Source → Reading R}
  {capped : Option Place → R → Prop}

/-- The last element of an array, which has been announced. -/
theorem resumeElement_capped (hread : Resumable FrameStack.SameOuter read)
    (h : KeepsCaps limit capped read) {items : List R} {src : Source}
    (hs : src.stack.Capped limit) (hfield : src.stack.top.fieldStarted = true)
    (hstarted : src.stack.top.messageStarted = true)
    (hitems : CappedItems limit capped (some src.stack.place) items) :
    (resumeElement read items src).Capped limit (CappedItems limit capped) := by
  unfold resumeElement
  cases hlast : items.getLast? with
  | none => exact .stopped rfl hs hitems
  | some item =>
    obtain ⟨front, rfl⟩ := List.getLast?_eq_some_iff.mp hlast
    have hitem := hitems.last item hlast
    rw [nestedPlace_started hstarted] at hitem
    have hdeclared := hitems.declared _ (declaredLength_started hfield)
    have hcounted := hitems.counted _ (announcedCount_started hfield)
    have hfront := hitems.finished
    rw [List.length_append, List.length_singleton] at hdeclared hcounted
    rw [hstarted, Bool.toNat_true] at hcounted
    rw [List.dropLast_concat] at hfront
    obtain ⟨hs', hdone, hstopped⟩ := readNested_capped hread h hs hitem
    have htop := (readNested_stack hread item src).2
    simp only [List.dropLast_concat]
    rcases hr : readNested read item src with ⟨progress, item', src'⟩
    rw [hr] at hs' hdone hstopped htop
    simp only at htop
    cases hadvance : progress.isAdvance with
    | true =>
      -- the element is counted now, and none is announced any more
      let counted : FrameStack := src'.stack.modifyTop fun f =>
        { f with messageStarted := false, position := f.position + 1 }
      have hs'' : counted.Capped limit := ⟨hs'.outer, hs'.top, hs'.deeper⟩
      have hitem' := hdone hadvance
      have hall : CappedItems limit capped (some counted.place) (front ++ [item']) := by
        refine .concat_at hs'' ?_ ?_ ?_ hfront hitem' <;>
          simp only [counted, FrameStack.modifyTop, htop]
        · exact hfield
        · exact hdeclared
        · exact hcounted
      exact ⟨hs'', hall, fun _ => .concat (Nat.le_trans hdeclared hs.top) hfront hitem'⟩
    | false =>
      refine .stopped hadvance hs' (.concat_at hs' ?_ ?_ ?_ hfront ?_)
      all_goals simp only [htop, Bool.false_eq_true, if_false]
      · exact hfield
      · exact hdeclared
      · rwa [hstarted, Bool.toNat_true]
      · rw [nestedPlace_started (htop ▸ hstarted)]
        exact hstopped hadvance

variable (hread : Resumable FrameStack.SameOuter read) (h : KeepsCaps limit capped read)
  (hcreate : ∀ type message, create type = some message → ∀ place, capped place message)
  (hcomplete : ∀ place message, capped place message → capped none message)
include hread h hcreate hcomplete

/-- One more element of an array that is not complete. -/
theorem readElement_capped {items : List R} {src : Source} (hs : src.stack.Capped limit)
    (hfield : src.stack.top.fieldStarted = true)
    (hroom : src.stack.top.position < src.stack.top.length)
    (hitems : CappedItems limit capped (some src.stack.place) items) :
    (readElement create read items src).Capped limit (CappedItems limit capped) := by
  unfold readElement
  split
  · next hstarted => exact resumeElement_capped hread h hs hfield hstarted hitems
  · next hstarted =>
    split
    · exact .stopped rfl hs hitems
    · dsimp only
      split
      · exact .stopped rfl hs hitems
      · split
        · exact .stopped rfl hs hitems
        · next item hitem =>
          have hcounted := hitems.counted _ (announcedCount_started hfield)
          rw [Bool.not_eq_true] at hstarted
          rw [hstarted, Bool.toNat_false] at hcounted
          let announced : Source := src.modifyTop fun f => { f with messageStarted := true }
          have hs' : announced.stack.Capped limit := ⟨hs.outer, hs.top, hs.deeper⟩
          have hall : CappedItems limit capped (some announced.stack.place) (items ++ [item]) := by
            refine .concat_at hs' hfield ?_ ?_ (hitems.complete hcomplete).mem
              (hcreate _ item hitem _)
            · show items.length + 1 ≤ src.stack.top.length
              omega
            · show items.length + 1 ≤ src.stack.top.position + 1
              omega
          exact resumeElement_capped hread h hs' hfield rfl hall

/-- As many elements as are missing from an array. The induction is on their number, which the
frame tells at every step. -/
theorem readElements_capped (count : Nat) {items : List R} {src : Source}
    (hcount : count = src.stack.top.length - src.stack.top.position)
    (hs : src.stack.Capped limit) (hfield : src.stack.top.fieldStarted = true)
    (hitems : CappedItems limit capped (some src.stack.place) items) :
    (readElements create read count items src).Capped limit (CappedItems limit capped) := by
  induction count generalizing items src with
  | zero => exact ⟨hs, hitems, fun _ => hitems.complete hcomplete⟩
  | succ count ih =>
    have helement := readElement_capped hread h hcreate hcomplete hs hfield (by omega) hitems
    have hparts : Resumable FrameStack.SameField (readElement create read) := .readElement hread
    have hkeeps := hparts.keeps items src
    have hposition := readElement_position create hread items src
    simp only [readElements]
    cases hadvance : (readElement create read items src).progress.isAdvance with
    | true =>
      simp only [hadvance, if_true] at hposition
      refine ih ?_ helement.stack (hkeeps.fieldStarted.trans hfield) helement.slot
      rw [hposition, hkeeps.length]
      omega
    | false => exact helement

/-- An array of messages. -/
theorem KeepsCaps.readMessages :
    KeepsCaps limit
      (fun place slot => ∀ items, slot = some items → CappedItems limit capped place items)
      (readMessages limit create read) := by
  refine .readSized (fun _ => .nil) (fun items src hs hfield hitems => ?_) _
  exact readElements_capped hread h hcreate hcomplete _ rfl hs hfield hitems

end

/-! ## Messages -/

/-- Accepting a header moves no place. -/
theorem Field.capped_header {A : Type} (field : Field A) {tag : Int8} {p : Place} {slot : A}
    (done : Bool) (flags : UInt8) (h : field.Capped limit tag (some p) slot) :
    field.Capped limit tag
      (some { p with top := { p.top with headerDone := done, flags := flags } }) slot := by
  have hitems : ∀ {R : Type} {capped : Option Place → R → Prop} {items : List R},
      CappedItems limit capped (some p) items → CappedItems limit capped
        (some { p with top := { p.top with headerDone := done, flags := flags } }) items :=
    fun h => ⟨h.length_le, h.declared, h.counted, h.finished, h.last⟩
  cases field with
  | array layout => exact fun items hslot => hitems (h items hslot)
  | batch layout => exact ⟨fun items hslot => hitems (h.1 items hslot), h.2⟩
  | keys layout => exact ⟨fun items hslot => hitems (h.1 items hslot), h.2⟩
  | values selector value invocation =>
    refine ⟨fun items hslot => ?_, fun items hslot => ?_, h.2.2⟩
    · have hvalues := h.1 items hslot
      split at hvalues
      · next htag => rwa [if_pos htag]
      · next htag =>
        rw [if_neg htag]
        exact hitems hvalues
    · have hinvocations := h.2.1 items hslot
      split at hinvocations
      · next htag =>
        rw [if_pos htag]
        exact hitems hinvocations
      · next htag => rwa [if_neg htag]
  | _ => exact h

/-- Accepting a header moves no place. -/
theorem Fields.capped_header {p : Place} (done : Bool) (flags : UInt8) : {S : Type} →
    (fields : Fields S) → {tag : Int8} → {skip : Nat} → {slots : S} →
    fields.Capped limit tag skip (some p) slots → fields.Capped limit tag skip
      (some { p with top := { p.top with headerDone := done, flags := flags } }) slots
  | _, .nil, _, _, _, _ => trivial
  | _, .cons field _, _, 0, _, h => ⟨field.capped_header done flags h.1, h.2⟩
  | _, .cons _ rest, _, _ + 1, _, h => ⟨h.1, rest.capped_header done flags h.2⟩

/-- A header leaves capped what is. -/
theorem readHeader_capped {S : Type} {fields : Fields S} (type : UInt16) (fieldCount : Nat)
    {src : Source} {tag : Int8} {skip : Nat} {slots : S} (hs : src.stack.Capped limit)
    (hslots : fields.Capped limit tag skip (some src.stack.place) slots) :
    let r := readHeader type fieldCount src
    r.source.stack.Capped limit ∧
      fields.Capped limit tag skip (some r.source.stack.place) slots := by
  unfold readHeader
  split
  · exact ⟨hs, hslots⟩
  · split
    · exact ⟨hs, hslots⟩
    · split
      · exact ⟨hs, hslots⟩
      · exact ⟨⟨hs.outer, hs.top, hs.deeper⟩, fields.capped_header _ _ hslots⟩

/-- Fields whose readers leave slots capped, and that tell how far they came. -/
def Fields.KeepsCaps {S : Type} (fields : Fields S) (limit : Nat) : Prop :=
  ∀ tag skip slots src, src.stack.Capped limit →
    fields.Capped limit tag skip (some src.stack.place) slots →
    let r := fields.read limit tag skip slots src
    r.source.stack.Capped limit ∧
      (∃ more, r.source.stack.top.state = src.stack.top.state + more ∧
        fields.Capped limit tag (skip + more) (some r.source.stack.place) r.slot) ∧
      (r.progress.isAdvance = true → fields.Capped limit tag 0 none r.slot)

/-- One field more in front. -/
theorem Fields.keepsCaps_cons {A S : Type} {field : Field A} {rest : Fields S}
    (hfield : ∀ tag, Wire.KeepsCaps limit (field.Capped limit tag) (field.read limit tag))
    (hrest : rest.KeepsCaps limit) : (Fields.cons field rest).KeepsCaps limit := by
  intro tag skip slots src hs hslots
  cases skip with
  | succ skip =>
    obtain ⟨hs', ⟨more, hstate, hmore⟩, hall⟩ :=
      hrest (field.tag slots.1 tag) skip slots.2 src hs hslots.2
    refine ⟨hs', ⟨more, hstate, ?_⟩, fun hadvance => ⟨hslots.1, hall hadvance⟩⟩
    rw [Nat.add_right_comm]
    exact ⟨hslots.1, hmore⟩
  | zero =>
    have hslot := hfield tag slots.1 src hs hslots.1
    have hkeeps := (field.resumable limit tag).keeps slots.1 src
    simp only [Fields.read]
    rcases hr : field.read limit tag slots.1 src with ⟨progress, slot, src'⟩
    rw [hr] at hslot hkeeps
    have hstate : src'.stack.top.state = src.stack.top.state := hkeeps.state
    cases hadvance : progress.isAdvance with
    | true =>
      -- the rest has not been started, so it is capped at the next field whatever came before
      have hslot' : field.Capped limit tag none slot := hslot.complete hadvance
      let next : Source := { src' with stack := src'.stack.nextField }
      obtain ⟨hs', ⟨more, hnext, hmore⟩, hall⟩ := hrest (field.tag slot tag) 0 slots.2 next
        hslot.stack.nextField (rest.capped_fresh rfl rfl (rest.capped_tag _ 0 hslots.2))
      simp only [if_true]
      refine ⟨hs', ⟨more + 1, ?_, ?_⟩, fun hdone => ⟨hslot', hall hdone⟩⟩
      · have hnext' : next.stack.top.state = src'.stack.top.state + 1 := rfl
        show (rest.read limit (field.tag slot tag) 0 slots.2 next).source.stack.top.state = _
        omega
      · rw [Nat.zero_add] at hmore ⊢
        exact ⟨hslot', hmore⟩
    | false =>
      simp only [Bool.false_eq_true, if_false]
      exact ⟨hslot.stack, ⟨0, hstate, hslot.slot, rest.capped_tag _ 0 hslots.2⟩,
        fun hdone => absurd (hadvance.symm.trans hdone) Bool.false_ne_true⟩

/-- Whether settling a message leaves its lengths at most `limit`, also where it fails. -/
def Layout.SettlesCapped (limit : Nat) : {R : Type} → Layout R → Prop
  | _, .message _ fields settle => ∀ slots, fields.Capped limit (-1) 0 none slots →
    fields.Capped limit (-1) 0 none (settle slots).2

/-- A message of some fields. -/
theorem Layout.keepsCaps_message {S : Type} {type : UInt16} {fields : Fields S}
    {settle : S → Except CodecError Unit × S} (hfields : fields.KeepsCaps limit)
    (hsettle : (Layout.message type fields settle).SettlesCapped limit) :
    KeepsCaps limit ((Layout.message type fields settle).Capped limit)
      ((Layout.message type fields settle).read limit) := by
  intro message src hs hmessage
  have hplace : fields.Capped limit (-1) src.stack.top.state (some src.stack.place)
      message.slots := hmessage
  have hheader := readHeader_capped type fields.count hs hplace
  rw [← readHeader_state type fields.count src] at hheader
  simp only [Layout.read]
  rcases hr : readHeader type fields.count src with ⟨progress, ⟨⟩, src'⟩
  rw [hr] at hheader
  obtain ⟨hs', hslots⟩ := hheader
  cases hadvance : progress.isAdvance with
  | false =>
    simp only [Bool.false_eq_true, if_false]
    exact .stopped hadvance hs' hslots
  | true =>
    have hread := hfields (-1) src'.stack.top.state message.slots src' hs' hslots
    simp only [if_true]
    rcases hr' : fields.read limit (-1) src'.stack.top.state message.slots src' with
      ⟨progress', slots, src''⟩
    rw [hr'] at hread
    obtain ⟨hs'', ⟨more, hmore, hslots'⟩, hall⟩ := hread
    rw [← hmore] at hslots'
    cases hadvance' : progress'.isAdvance with
    | false =>
      simp only [Bool.false_eq_true, if_false]
      exact .stopped hadvance' hs'' hslots'
    | true =>
      simp only [if_true]
      split
      · next hcounted =>
        have hcount : src''.stack.top.state = fields.count := by
          unfold checkFieldCount at hcounted
          split at hcounted
          · assumption
          · cases hcounted
        have hsettled := hsettle slots (hall hadvance')
        exact ⟨hs'', fields.capped_all (Nat.le_of_eq hcount.symm) (fields.capped_tag _ _ hsettled),
          fun _ => hsettled⟩
      · next hcounted =>
        exact ⟨hs'', hslots', fun h => absurd h hcounted⟩

/-- An array that is handed over as a whole. -/
theorem Reading.Capped.store {R : Type} {capped : Option Place → R → Prop}
    {r : Reading (Option (List R))} {slot : BatchSlot R}
    (h : r.Capped limit fun place slot =>
      ∀ items, slot = some items → CappedItems limit capped place items)
    (hslot : CappedItems limit capped none slot.settled) :
    (slot.store r).Capped limit fun place slot =>
      (∀ items, slot.staged = some items → CappedItems limit capped place items) ∧
        CappedItems limit capped none slot.settled := by
  unfold BatchSlot.store
  split
  · next hadvance =>
    have hitems : CappedItems limit capped none (r.slot.getD []) := by
      cases hr : r.slot with
      | none => exact .nil
      | some items => exact h.complete hadvance items hr
    exact ⟨h.stack, ⟨forall_of_none, hitems⟩, fun _ => ⟨forall_of_none, hitems⟩⟩
  · next hstopped =>
    exact ⟨h.stack, ⟨h.slot, hslot⟩, fun hadvance => absurd hadvance hstopped⟩

mutual
/-- Whether something holds of a layout and of all layouts in it. -/
def Layout.Every (p : {R : Type} → Layout R → Prop) : {R : Type} → Layout R → Prop
  | _, .message type fields settle => p (.message type fields settle) ∧ fields.Every p
/-- Whether something holds of all layouts in fields. -/
def Fields.Every (p : {R : Type} → Layout R → Prop) : {S : Type} → Fields S → Prop
  | _, .nil => True
  | _, .cons field rest => field.Every p ∧ rest.Every p
/-- Whether something holds of all layouts in a field. -/
def Field.Every (p : {R : Type} → Layout R → Prop) : {A : Type} → Field A → Prop
  | _, .flag => True
  | _, .ordinal _ _ _ _ => True
  | _, .int32 => True
  | _, .int64 => True
  | _, .uint128 => True
  | _, .bytes => True
  | _, .text _ => True
  | _, .longs => True
  | _, .optional layout => layout.Every p
  | _, .required _ layout => layout.Every p
  | _, .array layout => layout.Every p
  | _, .batch layout => layout.Every p
  | _, .keys layout => layout.Every p
  | _, .values _ value invocation => value.Every p ∧ invocation.Every p
end

/-- The message that is created for a type is under every limit. -/
theorem Layout.create_capped {R : Type} (layout : Layout R) (type : UInt16) (message : R)
    (h : layout.create type = some message) (place : Option Place) :
    layout.Capped limit place message := by
  unfold Layout.create at h
  split at h
  · rw [← Option.some.inj h]
    exact layout.capped_blank place
  · cases h

mutual
/-- Reading a message keeps to the limit, if settling it and the messages in it does. -/
theorem Layout.keepsCaps : {R : Type} → (layout : Layout R) →
    layout.Every (Layout.SettlesCapped limit) →
    KeepsCaps limit (layout.Capped limit) (layout.read limit)
  | _, .message _ fields _, h => Layout.keepsCaps_message (fields.keepsCaps h.2) h.1
/-- Reading fields keeps to the limit. -/
theorem Fields.keepsCaps : {S : Type} → (fields : Fields S) →
    fields.Every (Layout.SettlesCapped limit) → fields.KeepsCaps limit
  | _, .nil, _ => fun _ _ _ _ hs _ => ⟨hs, ⟨0, rfl, trivial⟩, fun _ => trivial⟩
  | _, .cons field rest, h => Fields.keepsCaps_cons (field.keepsCaps h.1) (rest.keepsCaps h.2)
/-- Reading a field keeps to the limit. -/
theorem Field.keepsCaps : {A : Type} → (field : Field A) →
    field.Every (Layout.SettlesCapped limit) → (tag : Int8) →
    KeepsCaps limit (field.Capped limit tag) (field.read limit tag)
  | _, .flag, _, _ => (.fixed 1 _ : KeepsCaps limit (fun _ _ => True) readBool)
  | _, .ordinal name count optional _, _, _ => .ordinal name count optional
  | _, .int32, _, _ => (.fixed 4 _ : KeepsCaps limit (fun _ _ => True) readInt32)
  | _, .int64, _, _ => (.fixed 8 _ : KeepsCaps limit (fun _ _ => True) readInt64)
  | _, .uint128, _, _ => (.fixed 16 _ : KeepsCaps limit (fun _ _ => True) readUInt128)
  | _, .bytes, _, _ => .readBytes
  | _, .text onNull, _, _ => .readTextField onNull
  | _, .longs, _, _ => fun slot src hs h => by
    have hitems := KeepsCaps.readLongs (some slot) src hs fun items hitems => by
      rwa [← Option.some.inj hitems]
    refine hitems.map (fun items : Option (List Int64) => items.getD []) fun _ items h => ?_
    cases items with
    | none => exact Nat.zero_le _
    | some items => exact h items rfl
  | _, .optional layout, h, _ =>
    .readMessage (layout.resumable limit) (layout.keepsCaps h) layout.create_capped
  | _, .required name layout, h, _ =>
    .readRequired (layout.resumable limit) (layout.keepsCaps h) layout.create_capped
      layout.capped_blank name
  | _, .array layout, h, _ =>
    .readMessages (layout.resumable limit) (layout.keepsCaps h) layout.create_capped
      Layout.Capped.complete
  | _, .batch layout, h, _ => fun slot src hs hslot =>
    (KeepsCaps.readMessages (layout.resumable limit) (layout.keepsCaps h) layout.create_capped
      Layout.Capped.complete slot.staged src hs hslot.1).store hslot.2
  | _, .keys layout, h, _ => fun slot src hs hslot =>
    (KeepsCaps.readMessages (layout.resumable limit) (layout.keepsCaps h) layout.create_capped
      Layout.Capped.complete slot.inbound src hs hslot.1).map
        (fun items : Option (List _) => ({ slot with inbound := items } : KeysSlot _))
        fun _ _ hitems => ⟨hitems, hslot.2⟩
  | _, .values selector value invocation, h, tag => fun slot src hs hslot => by
    by_cases htag : tag = selector
    · simp only [Field.Capped, Field.read, if_pos htag] at hslot ⊢
      exact (KeepsCaps.readMessages (invocation.resumable limit) (invocation.keepsCaps h.2)
        invocation.create_capped Layout.Capped.complete slot.inboundInvocations src hs
        hslot.2.1).map _ fun _ _ hitems => ⟨hslot.1, hitems, hslot.2.2⟩
    · simp only [Field.Capped, Field.read, if_neg htag] at hslot ⊢
      exact (KeepsCaps.readMessages (value.resumable limit) (value.keepsCaps h.1)
        value.create_capped Layout.Capped.complete slot.inboundValues src hs
        hslot.1).map _ fun _ _ hitems => ⟨hitems, hslot.2⟩
end

end Enlistment.Wire
