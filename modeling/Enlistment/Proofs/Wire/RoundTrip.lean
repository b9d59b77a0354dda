import Enlistment.Proofs.Wire.Parsing
import Enlistment.Proofs.Wire.Reading

/-!
# Reading what was written

The encoding of a sound record spells it. So what is read from the encoding, from fresh frames
into a blank record, is the record again.
-/

namespace Enlistment.Wire

variable {limit : Nat}

/-- The octets of a byte string spell it, if it keeps to the limit. -/
theorem spellsSized_sizedBytes {value : Option Bytes}
    (h : ∀ bs, value = some bs → bs.length ≤ limit) :
    SpellsSized limit Eq value (sizedBytes value) := by
  cases value with
  | none => rfl
  | some bs => exact ⟨h bs rfl, bs, rfl, rfl⟩

/-- The encodings of messages spell them one after the other, if each of them does. -/
theorem spellsEach_flatMap {R : Type} {spells : R → Bytes → Prop} {encode : R → Bytes}
    {items : List R} (h : ∀ item ∈ items, spells item (encode item)) :
    SpellsEach spells items (items.flatMap encode) := by
  induction items with
  | nil => rfl
  | cons item rest ih =>
    obtain ⟨hitem, hrest⟩ := List.forall_mem_cons.mp h
    exact ⟨encode item, rest.flatMap encode, List.flatMap_cons, hitem, ih hrest⟩

/-- The octets of an array spell it, if it keeps to the limit and the encodings of its elements
spell them. -/
theorem Layout.spellsSized_arrayBytes {R : Type} {layout : Layout R}
    (hspells : ∀ message, layout.Sound message → layout.Within limit message →
      layout.Spells limit message (layout.encode message)) {value : Option (List R)}
    (hsound : ∀ items, value = some items → ∀ item ∈ items, layout.Sound item)
    (hwithin : ∀ items, value = some items →
      items.length ≤ limit ∧ ∀ item ∈ items, layout.Within limit item) :
    SpellsSized limit (SpellsEach (layout.Spells limit)) value
      (arrayBytes layout.encode value) := by
  cases value with
  | none => exact List.append_nil _
  | some items =>
    obtain ⟨hlength, hitems⟩ := hwithin items rfl
    exact ⟨hlength, items.flatMap layout.encode, rfl, spellsEach_flatMap fun item hitem =>
      hspells item (hsound items rfl item hitem) (hitems item hitem)⟩

mutual
/-- The encoding of a sound record spells it, if it keeps to the limit. -/
theorem Layout.spells_encode : {R : Type} → (layout : Layout R) → layout.HandsOver →
    (message : R) → layout.Sound message → layout.Within limit message →
    layout.Spells limit message (layout.encode message)
  | _, .message _ fields _, hlaw, message, hsound, hwithin =>
    ⟨fields.arrived message.slots, fields.encode message.slots, rfl,
      fields.spells_encode hlaw.2 hsound.1 hwithin, hsound.2, hlaw.1 _ _ hsound.2⟩
/-- The encoding of slots that may arrive spells them as they arrive. -/
theorem Fields.spells_encode : {S : Type} → (fields : Fields S) → fields.HandOver →
    {tag : Int8} → {slots : S} → fields.Arrives tag (fields.arrived slots) →
    fields.Within limit slots → fields.Spells limit tag (fields.arrived slots) (fields.encode slots)
  | _, .nil, _, _, _, _, _ => rfl
  | _, .cons field rest, hlaw, _, slots, harrives, hwithin =>
    ⟨field.encode slots.1, rest.encode slots.2, rfl,
      field.spells_encode hlaw.1 harrives.1 hwithin.1,
      rest.spells_encode hlaw.2 harrives.2 hwithin.2⟩
/-- The encoding of a slot that may arrive spells it as it arrives. -/
theorem Field.spells_encode : {A : Type} → (field : Field A) → field.HandsOver →
    {tag : Int8} → {slot : A} → field.Arrives tag (field.arrived slot) →
    field.Within limit slot → field.Spells limit tag (field.arrived slot) (field.encode slot)
  | _, .flag, _, _, slot, _, _ => by
    cases slot with
    | false => exact ⟨0, rfl, rfl⟩
    | true => exact ⟨1, rfl, rfl⟩
  | _, .ordinal _ _ _ _, _, _, _, harrives, _ => ⟨rfl, harrives⟩
  | _, .int32, _, _, _, _, _ => rfl
  | _, .int64, _, _, _, _, _ => rfl
  | _, .uint128, _, _, _, _, _ => rfl
  | _, .bytes, _, _, _, _, hwithin => spellsSized_sizedBytes hwithin
  | _, .text onNull, _, _, slot, harrives, hwithin => by
    refine ⟨slot.text, spellsSized_sizedBytes fun bs hbs => ?_, ?_⟩
    · obtain ⟨t, ht, rfl⟩ := Option.map_eq_some_iff.mp hbs
      exact hwithin t ht
    · obtain ⟨-, hnull⟩ := harrives
      cases htext : slot.text with
      | some t =>
        simp only [Field.arrived, htext]
        cases onNull <;> rfl
      | none =>
        obtain rfl := hnull htext
        simp only [Field.arrived, htext]
        rfl
  | _, .longs, _, _, slot, _, hwithin => ⟨some slot, ⟨hwithin, _, rfl, rfl⟩, rfl⟩
  | _, .optional layout, hlaw, _, slot, harrives, hwithin => by
    cases slot with
    | none => rfl
    | some message =>
      exact layout.spells_encode hlaw message (harrives message rfl) (hwithin message rfl)
  | _, .required _ layout, hlaw, _, slot, harrives, hwithin =>
    layout.spells_encode hlaw slot harrives hwithin
  | _, .array layout, hlaw, _, _, harrives, hwithin =>
    layout.spellsSized_arrayBytes (layout.spells_encode hlaw) harrives hwithin
  | _, .batch layout, hlaw, _, slot, harrives, hwithin =>
    ⟨some slot.settled, layout.spellsSized_arrayBytes (layout.spells_encode hlaw)
      (fun _ hitems => Option.some.inj hitems ▸ harrives.2)
      fun _ hitems => Option.some.inj hitems ▸ hwithin, rfl⟩
  | _, .keys layout, hlaw, _, _, harrives, hwithin =>
    ⟨layout.spellsSized_arrayBytes (layout.spells_encode hlaw) harrives.2.2 hwithin, rfl⟩
  | _, .values selector value invocation, hlaw, tag, slot, harrives, hwithin => by
    obtain ⟨-, hvalues, hinvocations⟩ := harrives
    simp only [Field.Spells]
    rcases hsettled : slot.settled with _ | items | items <;>
      simp only [Field.arrived, Field.encode, hsettled] at hvalues hinvocations ⊢
    · split <;> exact ⟨rfl, trivial⟩
    · obtain ⟨htag, hsound⟩ := hvalues items rfl
      rw [if_neg htag]
      exact ⟨value.spellsSized_arrayBytes (value.spells_encode hlaw.1)
        (fun _ hfound => Option.some.inj hfound ▸ hsound)
        fun _ hfound => Option.some.inj hfound ▸ hwithin.1 items hsettled, trivial⟩
    · obtain ⟨htag, hsound⟩ := hinvocations items rfl
      rw [if_pos htag]
      exact ⟨invocation.spellsSized_arrayBytes (invocation.spells_encode hlaw.2)
        (fun _ hfound => Option.some.inj hfound ▸ hsound)
        fun _ hfound => Option.some.inj hfound ▸ hwithin.2 items hsettled, trivial⟩
end

/-- A record as it arrives, before it is settled. -/
def Layout.arrived : {R : Type} → Layout R → R → R
  | _, .message _ fields _, record => ⟨record.flags, fields.arrived record.slots⟩

/-- Whether the slots of a record may arrive, whatever they settle to. -/
def Layout.Arrives : {R : Type} → Layout R → R → Prop
  | _, .message _ fields _, record => fields.Arrives (-1) (fields.arrived record.slots)

/-- The encoding of a record whose slots may arrive is the fields of what arrives. -/
theorem Layout.formed_encode {R : Type} (layout : Layout R) (hlaw : layout.HandsOver)
    {record : R} (harrives : layout.Arrives record) (hwithin : layout.Within limit record) :
    layout.Formed limit (layout.arrived record) (layout.encode record) := by
  cases layout with
  | message type fields settle =>
    exact ⟨fields.encode record.slots, rfl, fields.spells_encode hlaw.2 harrives hwithin⟩

end Enlistment.Wire
