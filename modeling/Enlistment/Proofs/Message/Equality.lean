import Enlistment.Message.Draft
import Mathlib.Data.List.Forall2

/-!
# Equality of messages

Two cache objects with octets compare by them, and any other two compare by their values. The
equality of messages follows from this one through the objects in them. It is reflexive and
symmetric, and neither marshalling nor unmarshalling takes a message away from itself. It is
not transitive: what is compared changes with the pair, and an object that has not decoded its
octets yet is compared by a value that it does not have. This file finds the triples that fail.
-/

namespace Enlistment

/-! ## Objects -/

namespace ValueObject

variable {a b c : ValueObject}

/-- Objects with octets compare by them. -/
theorem same_of_octets {x y : Bytes} (ha : a.bytes = some x) (hb : b.bytes = some y) :
    a.same b = (x == y) := by
  rw [same, ha, hb]

/-- An object without octets compares by its value. -/
theorem same_of_left (ha : a.bytes = none) : a.same b = (a.value == b.value) := by
  rw [same, ha]

/-- An object compares by its value with one that has no octets. -/
theorem same_of_right (hb : b.bytes = none) : a.same b = (a.value == b.value) := by
  rw [same, hb]
  cases a.bytes <;> rfl

/-- An object equals itself. -/
theorem same_refl (a : ValueObject) : a.same a = true := by
  cases h : a.bytes with
  | none => simp only [same_of_left h, beq_self_eq_true]
  | some x => simp only [same_of_octets h h, beq_self_eq_true]

/-- The order of two objects does not matter. -/
theorem same_comm (a b : ValueObject) : a.same b = b.same a := by
  cases ha : a.bytes with
  | none => rw [same_of_left ha, same_of_right ha, Bool.beq_comm]
  | some x =>
    cases hb : b.bytes with
    | none => rw [same_of_left hb, same_of_right hb, Bool.beq_comm]
    | some y => rw [same_of_octets ha hb, same_of_octets hb ha, Bool.beq_comm]

/-- Three objects where each neighbour is equal and the ends are not. Two of them have octets, and
the third compares by its value alone. -/
inductive Torn (a b c : ValueObject) : Prop
  /-- The first two have the same octets, but only the second holds what the last one holds. -/
  | last {x : Bytes} (hfirst : a.bytes = some x) (hmiddle : b.bytes = some x)
      (hlast : c.bytes = none) (hvalue : b.value = c.value) (hother : a.value ≠ b.value)
  /-- The last two have the same octets, but only the second holds what the first one holds. -/
  | first {x : Bytes} (hfirst : a.bytes = none) (hmiddle : b.bytes = some x)
      (hlast : c.bytes = some x) (hvalue : a.value = b.value) (hother : b.value ≠ c.value)
  /-- All three hold the same, but the first and the last have different octets for it. -/
  | middle {x y : Bytes} (hfirst : a.bytes = some x) (hmiddle : b.bytes = none)
      (hlast : c.bytes = some y) (hleft : a.value = b.value) (hright : b.value = c.value)
      (hother : x ≠ y)

/-- The ends of a torn triple differ. -/
theorem Torn.not_same (h : Torn a b c) : a.same c = false := by
  cases h with
  | last hfirst hmiddle hlast hvalue hother =>
    rw [same_of_right hlast, ← hvalue]
    exact beq_eq_false_iff_ne.mpr hother
  | first hfirst hmiddle hlast hvalue hother =>
    rw [same_of_left hfirst, hvalue]
    exact beq_eq_false_iff_ne.mpr hother
  | middle hfirst hmiddle hlast hleft hright hother =>
    rw [same_of_octets hfirst hlast]
    exact beq_eq_false_iff_ne.mpr hother

/-- Equality goes through a middle object unless the triple is torn. -/
theorem same_or_torn (hab : a.same b = true) (hbc : b.same c = true) :
    a.same c = true ∨ Torn a b c := by
  cases ha : a.bytes with
  | none =>
    have hvalue : a.value = b.value := eq_of_beq (same_of_left ha ▸ hab)
    by_cases hother : b.value = c.value
    · left
      rw [same_of_left ha, hvalue, hother, beq_self_eq_true]
    · right
      cases hb : b.bytes with
      | none => exact absurd (eq_of_beq (same_of_left hb ▸ hbc)) hother
      | some y =>
        cases hc : c.bytes with
        | none => exact absurd (eq_of_beq (same_of_right hc ▸ hbc)) hother
        | some z =>
          obtain rfl : y = z := eq_of_beq (same_of_octets hb hc ▸ hbc)
          exact .first ha hb hc hvalue hother
  | some x =>
    cases hb : b.bytes with
    | none =>
      have hleft : a.value = b.value := eq_of_beq (same_of_right hb ▸ hab)
      have hright : b.value = c.value := eq_of_beq (same_of_left hb ▸ hbc)
      cases hc : c.bytes with
      | none =>
        left
        rw [same_of_right hc, hleft, hright, beq_self_eq_true]
      | some z =>
        by_cases hother : x = z
        · left
          rw [same_of_octets ha hc, hother, beq_self_eq_true]
        · exact .inr (.middle ha hb hc hleft hright hother)
    | some y =>
      obtain rfl : x = y := eq_of_beq (same_of_octets ha hb ▸ hab)
      cases hc : c.bytes with
      | none =>
        have hvalue : b.value = c.value := eq_of_beq (same_of_right hc ▸ hbc)
        by_cases hother : a.value = b.value
        · left
          rw [same_of_right hc, hother, hvalue, beq_self_eq_true]
        · exact .inr (.last ha hb hc hvalue hother)
      | some z =>
        left
        rw [same_of_octets ha hc]
        exact same_of_octets hb hc ▸ hbc

/-- Marshalling does not take an object away from itself. -/
theorem same_marshal (a : ValueObject) : a.marshal.same a = true := by
  obtain ⟨bytes, value⟩ := a
  cases bytes with
  | some x => exact same_refl _
  | none =>
    cases value with
    | none => exact same_refl _
    | some v => exact beq_self_eq_true (some v)

/-- Unmarshalling does not take an object away from itself, whether or not it succeeds. -/
theorem same_unmarshal (keepBinary : Bool) (hasClass : String → Bool) (a : ValueObject) :
    (a.unmarshal keepBinary hasClass).2.same a = true := by
  obtain ⟨bytes, value⟩ := a
  cases bytes with
  | some x => exact beq_self_eq_true x
  | none => cases value <;> exact beq_self_eq_true _

/-- Lists of objects, each one by one equal to a middle list, are equal to each other unless a
triple of objects in the same place is torn. -/
theorem forall₂_same_iff {xs ys zs : List ValueObject}
    (hxy : List.Forall₂ (fun x y => x.same y = true) xs ys)
    (hyz : List.Forall₂ (fun y z => y.same z = true) ys zs) :
    List.Forall₂ (fun x z => x.same z = true) xs zs ↔ ∀ (i : Nat) (x y z : ValueObject),
      xs[i]? = some x → ys[i]? = some y → zs[i]? = some z → ¬ Torn x y z := by
  induction hxy generalizing zs with
  | nil =>
    obtain rfl : zs = [] := List.forall₂_nil_left_iff.mp hyz
    exact iff_of_true .nil fun _ _ _ _ hx => by simp at hx
  | @cons x y xs ys hfirst hrest ih =>
    obtain ⟨z, zs, hfirst', hrest', rfl⟩ := List.forall₂_cons_left_iff.mp hyz
    rw [List.forall₂_cons, ih hrest']
    constructor
    · rintro ⟨hxz, htorn⟩ i x' y' z' hx hy hz
      cases i with
      | zero =>
        obtain rfl := Option.some.inj hx
        obtain rfl := Option.some.inj hy
        obtain rfl := Option.some.inj hz
        exact fun h => Bool.false_ne_true (h.not_same.symm.trans hxz)
      | succ i => exact htorn i x' y' z' hx hy hz
    · intro htorn
      refine ⟨?_, fun i x' y' z' hx hy hz => htorn (i + 1) x' y' z' hx hy hz⟩
      exact (same_or_torn hfirst hfirst').resolve_right (htorn 0 x y z rfl rfl rfl)

end ValueObject

/-- What a key is compared by. -/
def KeyObject.object (k : KeyObject) : ValueObject := ⟨k.bytes, k.value⟩

/-- Keys compare as values do, whatever their partitions. -/
theorem KeyObject.same_eq (a b : KeyObject) : a.same b = a.object.same b.object := rfl

/-- Marshalling a key marshals what it is compared by. -/
theorem KeyObject.object_marshal (ctx : MarshalContext) (k : KeyObject) :
    (k.marshal ctx).object = k.object.marshal := by
  obtain ⟨partition, bytes, value⟩ := k
  cases bytes <;> cases value <;> rfl

/-! ## Lists of objects -/

/-- Lists are equal if they are so one by one. -/
theorem beq_iff_forall₂ {A : Type} [BEq A] (xs ys : List A) :
    (xs == ys) = true ↔ List.Forall₂ (fun x y => (x == y) = true) xs ys := by
  induction xs generalizing ys with
  | nil =>
    cases ys with
    | nil => exact iff_of_true rfl .nil
    | cons y ys => exact iff_of_false Bool.false_ne_true nofun
  | cons x xs ih =>
    cases ys with
    | nil => exact iff_of_false Bool.false_ne_true nofun
    | cons y ys => rw [List.forall₂_cons, ← ih, List.cons_beq_cons, Bool.and_eq_true]

/-- Unmarshalling a list of objects, up to the first failure, keeps each object as it keeps one. -/
theorem unmarshalEach_forall₂ {A : Type} {unmarshal : A → Except UnmarshalError Unit × A}
    {R : A → A → Prop} (hrefl : ∀ a, R a a) (h : ∀ a, R (unmarshal a).2 a) (items : List A) :
    List.Forall₂ R (unmarshalEach unmarshal items).2 items := by
  induction items with
  | nil => exact .nil
  | cons a rest ih =>
    have ha := h a
    unfold unmarshalEach
    rcases hu : unmarshal a with ⟨_ | _, a'⟩ <;> rw [hu] at ha
    · exact .cons ha (List.forall₂_same.mpr fun b _ => hrefl b)
    · exact .cons ha ih

/-- Objects that may be absent are equal if both are absent, or both are there and equal. -/
theorem ValueObject.beq_option_iff (a b : Option ValueObject) :
    (a == b) = true ↔ List.Forall₂ (fun x y => x.same y = true) a.toList b.toList := by
  rcases a with _ | x <;> rcases b with _ | y
  · exact iff_of_true rfl .nil
  · exact iff_of_false Bool.false_ne_true nofun
  · exact iff_of_false Bool.false_ne_true nofun
  · exact ⟨fun h => .cons h .nil, fun h => (List.forall₂_cons.mp h).1⟩

namespace ReturnValue

/-- The object that a return value is compared by, if it has one. -/
def objects (r : ReturnValue) : List ValueObject := r.object.toList

/-- A return value without what its object holds. -/
def outline (r : ReturnValue) : ReturnValue := ⟨r.object.map fun _ => {}⟩

/-- Marshalling fills in octets only. -/
theorem outline_marshal (r : ReturnValue) : r.marshal.outline = r.outline := by
  obtain ⟨_ | o⟩ := r <;> rfl

/-- Marshalling a return value marshals its object. -/
theorem objects_marshal (r : ReturnValue) :
    r.marshal.objects = r.objects.map ValueObject.marshal := by
  obtain ⟨_ | o⟩ := r <;> rfl

/-- A return value equals itself. -/
theorem beq_self (r : ReturnValue) : (r == r) = true := by
  obtain ⟨_ | o⟩ := r
  · rfl
  · exact o.same_refl

/-- Unmarshalling does not take a return value away from itself. -/
theorem beq_unmarshal (keepBinary : Bool) (hasClass : String → Bool) (r : ReturnValue) :
    ((r.unmarshal keepBinary hasClass).2 == r) = true := by
  obtain ⟨_ | o⟩ := r
  · rfl
  · exact o.same_unmarshal keepBinary hasClass

/-- Return values are equal if both or neither have an object, and their objects are equal. -/
theorem beq_iff (r s : ReturnValue) : (r == s) = true ↔ r.outline = s.outline ∧
    List.Forall₂ (fun x y => x.same y = true) r.objects s.objects := by
  obtain ⟨_ | x⟩ := r <;> obtain ⟨_ | y⟩ := s
  · exact iff_of_true rfl ⟨rfl, .nil⟩
  · exact iff_of_false Bool.false_ne_true fun h => nomatch h.2
  · exact iff_of_false Bool.false_ne_true fun h => nomatch h.2
  · exact ⟨fun h => ⟨rfl, .cons h .nil⟩, fun h => (List.forall₂_cons.mp h.2).1⟩

/-- Lists of return values are equal if their outlines and all their objects are. -/
theorem beq_list_iff (rs ss : List ReturnValue) :
    (rs == ss) = true ↔ rs.map outline = ss.map outline ∧
      List.Forall₂ (fun x y => x.same y = true) (rs.flatMap objects) (ss.flatMap objects) := by
  induction rs generalizing ss with
  | nil =>
    cases ss with
    | nil => exact iff_of_true rfl ⟨rfl, .nil⟩
    | cons s ss => exact iff_of_false Bool.false_ne_true nofun
  | cons r rs ih =>
    cases ss with
    | nil => exact iff_of_false Bool.false_ne_true nofun
    | cons s ss =>
      rw [List.cons_beq_cons, Bool.and_eq_true, beq_iff, ih]
      obtain ⟨_ | x⟩ := r <;> obtain ⟨_ | y⟩ := s <;> simp [outline, objects, and_left_comm]

/-- Results that may be absent are equal if both are absent, or both are there and equal. -/
theorem beq_result_iff (a b : Option (List ReturnValue)) : (a == b) = true ↔
    (a.map fun rs => rs.map outline) = (b.map fun rs => rs.map outline) ∧
      List.Forall₂ (fun x y => x.same y = true) ((a.getD []).flatMap objects)
        ((b.getD []).flatMap objects) := by
  rcases a with _ | rs <;> rcases b with _ | ss
  · exact iff_of_true rfl ⟨rfl, .nil⟩
  · exact iff_of_false Bool.false_ne_true nofun
  · exact iff_of_false Bool.false_ne_true nofun
  · simpa using beq_list_iff rs ss

end ReturnValue

/-! ## What unmarshalling leaves -/

section

variable {σ : Type} (keepBinary : Bool) (loader : ClassLoader σ)

/-- Unmarshalling an invocation changes its arguments and its processor in memory only. -/
theorem InvokeValue.unmarshal_snd (i : InvokeValue σ) : ∃ resolved,
    (i.unmarshal keepBinary loader).2 = { i with
      args := (unmarshalEach (ValueObject.unmarshal keepBinary loader.hasClass) i.args).2
      resolved := resolved } := by
  unfold InvokeValue.unmarshal
  split
  · next hargs => exact ⟨i.resolved, by rw [hargs]⟩
  · next hargs =>
    split
    · exact ⟨i.resolved, by rw [hargs]⟩
    · next p _ => exact ⟨some p, by rw [hargs]⟩

/-- Unmarshalling a filter changes its operand and its predicate in memory only. -/
theorem Filter.unmarshal_snd (f : Filter σ) : ∃ resolved,
    (f.unmarshal keepBinary loader).2 = { f with
      operand := f.operand.map fun o => (o.unmarshal keepBinary loader.hasClass).2
      resolved := resolved } := by
  obtain ⟨kind, operand, className, resolved⟩ := f
  unfold Filter.unmarshal
  cases operand <;> dsimp only <;> split
  all_goals first
    | exact ⟨_, rfl⟩
    | split <;> exact ⟨_, rfl⟩

end

/-! ## Messages -/

namespace Message

variable {σ : Type}

/-- Whether messages of this type can be compared. -/
def hasEquality : Message σ → Bool
  | request _ => false
  | _ => true

/-- The cache objects in a message, in order. -/
def objects : Message σ → List ValueObject
  | key k => [k.object]
  | value v => [v]
  | invocation i => i.args
  | filter f => f.operand.toList
  | returnValue r => r.objects
  | response r => (r.result.getD []).flatMap ReturnValue.objects
  | _ => []

/-- A message without what its cache objects hold, and without user code. -/
def outline : Message σ → Message σ
  | key _ => key {}
  | value _ => value {}
  | invocation i => invocation { processor := i.processor }
  | filter f => filter { kind := f.kind, className := f.className }
  | returnValue r => returnValue r.outline
  | response r => response { r with result := r.result.map fun rs => rs.map ReturnValue.outline }
  | m => m

/-- Messages are equal if their outlines are and their objects are, one by one. -/
theorem same_iff (a b : Message σ) : a.same b = true ↔ a.hasEquality = true ∧
    a.outline = b.outline ∧ List.Forall₂ (fun x y => x.same y = true) a.objects b.objects := by
  cases a <;> cases b
  case key.key k l => simp [same, hasEquality, outline, objects, BEq.beq, KeyObject.same_eq]
  case value.value v w => simp [same, hasEquality, outline, objects, BEq.beq]
  case invocation.invocation i j =>
    have hargs := beq_iff_forall₂ i.args j.args
    simp only [show (invocation i).same (invocation j) =
      (i.processor == j.processor && i.args == j.args) from rfl, Bool.and_eq_true, beq_iff_eq,
      hargs, hasEquality, outline, objects, true_and, invocation.injEq, InvokeValue.mk.injEq,
      and_true]
    rfl
  case filter.filter f g =>
    have hoperand := ValueObject.beq_option_iff f.operand g.operand
    simp only [show (filter f).same (filter g) =
      (f.kind == g.kind && f.operand == g.operand && f.className == g.className) from rfl,
      Bool.and_eq_true, beq_iff_eq, hoperand, hasEquality, outline, objects, true_and,
      filter.injEq, Filter.mk.injEq, and_true, and_right_comm]
  case returnValue.returnValue r s =>
    simp [same, hasEquality, outline, objects, ReturnValue.beq_iff]
  case response.response r s =>
    have hresult := ReturnValue.beq_result_iff r.result s.result
    simp only [show (response r).same (response s) = (r.base == s.base &&
      r.futureId == s.futureId && r.mini == s.mini && r.lock == s.lock && r.result == s.result &&
      r.updateCount == s.updateCount && r.error == s.error && r.remap == s.remap &&
      r.rowFailures == s.rowFailures) from rfl, Bool.and_eq_true, beq_iff_eq, hresult,
      hasEquality, outline, objects, true_and, response.injEq, EnlistResponse.mk.injEq]
    grind
  case request.request r s => simp [same, hasEquality]
  all_goals simp [same, hasEquality, outline, objects]

/-- What a message holds does not matter for whether it can be compared. -/
theorem hasEquality_outline (a : Message σ) : a.outline.hasEquality = a.hasEquality := by
  cases a <;> rfl

/-- A message that can be compared equals itself. -/
theorem same_refl {a : Message σ} (h : a.hasEquality = true) : a.same a = true :=
  (same_iff a a).mpr ⟨h, rfl, List.forall₂_same.mpr fun o _ => o.same_refl⟩

/-- Equality of messages goes both ways. -/
theorem same_symm {a b : Message σ} (h : a.same b = true) : b.same a = true := by
  obtain ⟨heq, houtline, hobjects⟩ := (same_iff a b).mp h
  refine (same_iff b a).mpr ⟨?_, houtline.symm, ?_⟩
  · rw [← hasEquality_outline, ← houtline, hasEquality_outline, heq]
  · refine (List.Forall₂.flip hobjects).imp fun x y hxy => ?_
    rwa [ValueObject.same_comm]

/-- Marshalling a message that can be compared succeeds. It marshals the objects in the message
and leaves the rest. -/
theorem marshal_objects (ctx : MarshalContext) {a : Message σ} (h : a.hasEquality = true) :
    ∃ b, a.marshal ctx = .ok b ∧ b.outline = a.outline ∧
      b.objects = a.objects.map ValueObject.marshal := by
  cases a with
  | request r => cases h
  | key k => exact ⟨_, rfl, rfl, congrArg (fun o => [o]) (k.object_marshal ctx)⟩
  | filter f =>
    refine ⟨_, rfl, rfl, ?_⟩
    obtain ⟨kind, _ | operand, className, resolved⟩ := f <;> rfl
  | returnValue r =>
    exact ⟨_, rfl, congrArg returnValue r.outline_marshal, r.objects_marshal⟩
  | response r =>
    refine ⟨_, rfl, ?_, ?_⟩
    · simp only [EnlistResponse.marshal, outline, Option.map_map, Function.comp_def, List.map_map,
        ReturnValue.outline_marshal]
    · cases hresult : r.result with
      | none => simp only [EnlistResponse.marshal, objects, hresult, Option.map_none,
          Option.getD_none, List.flatMap_nil, List.map_nil]
      | some rs => simp only [EnlistResponse.marshal, objects, hresult, Option.map_some,
          Option.getD_some, List.flatMap_map, List.map_flatMap, ReturnValue.objects_marshal]
  | _ => exact ⟨_, rfl, rfl, rfl⟩

/-- Marshalling does not take a message away from itself. -/
theorem same_marshal (ctx : MarshalContext) {a : Message σ} (h : a.hasEquality = true) :
    ∃ b, a.marshal ctx = .ok b ∧ b.same a = true := by
  obtain ⟨b, hb, houtline, hobjects⟩ := marshal_objects ctx h
  refine ⟨b, hb, (same_iff b a).mpr ⟨?_, houtline, ?_⟩⟩
  · rw [← hasEquality_outline, houtline, hasEquality_outline, h]
  · rw [hobjects, List.forall₂_map_left_iff]
    exact List.forall₂_same.mpr fun o _ => o.same_marshal

/-- Unmarshalling does not take a message away from itself, whether or not it succeeds. -/
theorem same_unmarshal (keepBinary : Bool) (loader : ClassLoader σ) {a : Message σ}
    (h : a.hasEquality = true) : (a.unmarshal keepBinary loader).2.same a = true := by
  cases a with
  | request r => cases h
  | key k => exact k.object.same_unmarshal keepBinary loader.hasClass
  | value v => exact v.same_unmarshal keepBinary loader.hasClass
  | invocation i =>
    have hargs : List.Forall₂ (fun x y : ValueObject => x.same y = true)
        (unmarshalEach (ValueObject.unmarshal keepBinary loader.hasClass) i.args).2 i.args :=
      unmarshalEach_forall₂ ValueObject.same_refl (ValueObject.same_unmarshal _ _) i.args
    obtain ⟨resolved, hsnd⟩ := i.unmarshal_snd keepBinary loader
    refine (same_iff _ _).mpr ⟨rfl, ?_, ?_⟩ <;> simp only [unmarshal, Prod.map_snd, hsnd]
    · rfl
    · exact hargs
  | filter f =>
    obtain ⟨resolved, hsnd⟩ := f.unmarshal_snd keepBinary loader
    refine (same_iff _ _).mpr ⟨rfl, ?_, ?_⟩ <;> simp only [unmarshal, Prod.map_snd, hsnd]
    · rfl
    · rw [objects, objects]
      cases f.operand with
      | none => exact .nil
      | some o => exact .cons (o.same_unmarshal keepBinary loader.hasClass) .nil
  | returnValue r => exact r.beq_unmarshal keepBinary loader.hasClass
  | response r =>
    simp only [unmarshal, Prod.map_snd, EnlistResponse.unmarshal]
    cases hresult : r.result with
    | none => exact same_refl rfl
    | some rs =>
      have hrs : List.Forall₂ (fun x y : ReturnValue => (x == y) = true)
          (unmarshalEach (ReturnValue.unmarshal keepBinary loader.hasClass) rs).2 rs :=
        unmarshalEach_forall₂ ReturnValue.beq_self
          (ReturnValue.beq_unmarshal keepBinary loader.hasClass) rs
      obtain ⟨houtline, hobjects⟩ :=
        (ReturnValue.beq_list_iff _ _).mp ((beq_iff_forall₂ _ _).mpr hrs)
      refine (same_iff _ _).mpr ⟨rfl, ?_, ?_⟩
      · simp only [outline, hresult, Option.map_some, houtline]
      · simpa only [objects, hresult, Option.getD_some] using hobjects
  | _ => exact same_refl rfl

/-- Equality of messages is reflexive and symmetric, and a message equals itself after it was
marshalled and after it was unmarshalled, even if that failed. Where a message equals a second one
and that a third one, the first equals the third exactly if there is no torn triple among their
cache objects: one of two objects with the same octets lacks the value by which the other equals
an object without octets, or one object without octets equals two with different octets. -/
theorem equality_unless_torn (ctx : MarshalContext) (keepBinary : Bool) (loader : ClassLoader σ)
    (a b c : Message σ) (h : a.hasEquality = true) :
    a.same a = true ∧ a.same b = b.same a ∧ (∃ m, a.marshal ctx = .ok m ∧ m.same a = true) ∧
      (a.unmarshal keepBinary loader).2.same a = true ∧
      (a.same b = true → b.same c = true → (a.same c = true ↔
        ∀ (i : Nat) (x y z : ValueObject), a.objects[i]? = some x → b.objects[i]? = some y →
          c.objects[i]? = some z → ¬ x.Torn y z)) := by
  refine ⟨same_refl h, Bool.eq_iff_iff.mpr ⟨same_symm, same_symm⟩, same_marshal ctx h,
    same_unmarshal keepBinary loader h, fun hab hbc => ?_⟩
  obtain ⟨-, hab, hobjects⟩ := (same_iff a b).mp hab
  obtain ⟨-, hbc, hobjects'⟩ := (same_iff b c).mp hbc
  rw [same_iff, ← ValueObject.forall₂_same_iff hobjects hobjects']
  exact ⟨fun hac => hac.2.2, fun hac => ⟨h, hab.trans hbc, hac⟩⟩

/-- A response with a result, marshalled, equals the one that was received with the same octets,
and the response as it was built does not: the first result is torn. -/
theorem equality_unless_torn_of_response :
    let ctx : MarshalContext := { cacheId := 1, partitions := 8 }
    let loader : ClassLoader Unit := .ofRegistrations [] [] []
    let built : Message Unit :=
      response { result := some [.ofValue (some (.int 5)), .ofValue none] }
    let marshalled : Message Unit :=
      response { result := some [⟨some ⟨some [2, 10], some (.int 5)⟩⟩, ⟨none⟩] }
    let received : Message Unit := response { result := some [⟨some (.ofBytes [2, 10])⟩, ⟨none⟩] }
    (∃ m, built.marshal ctx = .ok m ∧ m.same built = true) ∧
      (built.unmarshal false loader).2.same built = true ∧
      built.same received = received.same built ∧
      ¬ ∀ (i : Nat) (x y z : ValueObject), built.objects[i]? = some x →
        marshalled.objects[i]? = some y → received.objects[i]? = some z → ¬ x.Torn y z := by
  intro ctx loader built marshalled received
  obtain ⟨-, -, hmarshal, hunmarshal, htorn⟩ :=
    equality_unless_torn ctx false loader built marshalled received (by decide)
  refine ⟨hmarshal, hunmarshal, ?_, fun hno => ?_⟩
  · exact (equality_unless_torn ctx false loader built received received (by decide)).2.1
  · exact absurd ((htorn (by decide) (by decide)).mpr hno) (by decide)

/-- A value equals its marshalled form, and this equals its octets before they are decoded, but
the value does not equal these octets. -/
theorem value_differs_from_its_octets :
    let built : Message Unit := value (.ofValue (.int 5))
    let marshalled : Message Unit := value (ValueObject.ofValue (.int 5)).marshal
    let decoded : Message Unit := value (.ofBytes [2, 10])
    built.same marshalled = true ∧ marshalled.same decoded = true ∧ built.same decoded = false := by
  decide

end Message

end Enlistment
