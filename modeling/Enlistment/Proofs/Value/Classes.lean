import Enlistment.UserCode

/-!
# Classes in values

An object mentions its class and the classes of the objects in its fields, at any depth. A loader
that does not know all of them is refused for the first one that it does not know, where the class
of an object comes before those of its fields, and these come from left to right.
-/

namespace Enlistment.Value

/-- The classes of the objects in a value, at any depth. -/
inductive Mentions : Value → String → Prop
  | own (className : String) (fields : List (String × Value)) :
      Mentions (.object className fields) className
  | nested {className name : String} {fields : List (String × Value)} {field : String × Value}
      (hfield : field ∈ fields) (h : Mentions field.2 name) :
      Mentions (.object className fields) name

/-- The first class in a value that is not known. -/
inductive FirstMissing (hasClass : String → Bool) : Value → String → Prop
  | own {className : String} (fields : List (String × Value)) (h : hasClass className = false) :
      FirstMissing hasClass (.object className fields) className
  | nested {className name : String} {before after : List (String × Value)}
      {field : String × Value} (hown : hasClass className = true)
      (hbefore : ∀ earlier ∈ before, ∀ known, Mentions earlier.2 known → hasClass known = true)
      (h : FirstMissing hasClass field.2 name) :
      FirstMissing hasClass (.object className (before ++ field :: after)) name

variable {hasClass : String → Bool} {name : String}

/-- A class that is missing is mentioned. -/
theorem FirstMissing.mentions {v : Value} (h : v.FirstMissing hasClass name) : v.Mentions name := by
  induction h with
  | own fields _ => exact .own _ fields
  | nested _ _ _ ih => exact .nested (List.mem_append_right _ List.mem_cons_self) ih

/-- The classes of fields are those of their values, field by field. -/
theorem fieldClasses_eq_flatMap (fields : List (String × Value)) :
    fieldClasses fields = fields.flatMap fun field => field.2.classes := by
  induction fields with
  | nil => rfl
  | cons field rest ih => rw [fieldClasses, ih, List.flatMap_cons]

mutual
/-- The classes that are listed are mentioned. -/
theorem mentions_of_mem_classes : (v : Value) → name ∈ v.classes → v.Mentions name
  | object className fields, h => by
    rcases List.mem_cons.mp h with rfl | hfields
    · exact .own _ _
    · obtain ⟨field, hfield, hname⟩ := mentions_of_mem_fieldClasses fields hfields
      exact .nested hfield hname
  | null, h | bool _, h | int _, h | text _, h | bytes _, h => by cases h
/-- The classes that are listed of fields are mentioned in one of them. -/
theorem mentions_of_mem_fieldClasses : (fields : List (String × Value)) →
    name ∈ fieldClasses fields → ∃ field ∈ fields, field.2.Mentions name
  | [], h => by cases h
  | (key, v) :: rest, h => by
    rcases List.mem_append.mp h with hv | hrest
    · exact ⟨(key, v), List.mem_cons_self, mentions_of_mem_classes v hv⟩
    · obtain ⟨field, hfield, hname⟩ := mentions_of_mem_fieldClasses rest hrest
      exact ⟨field, List.mem_cons_of_mem _ hfield, hname⟩
end

/-- The classes that are listed are those that are mentioned. -/
theorem mem_classes_iff {v : Value} : name ∈ v.classes ↔ v.Mentions name := by
  refine ⟨mentions_of_mem_classes v, fun h => ?_⟩
  induction h with
  | own => exact List.mem_cons_self
  | nested hfield _ ih =>
    refine List.mem_cons_of_mem _ ?_
    rw [fieldClasses_eq_flatMap]
    exact List.mem_flatMap.mpr ⟨_, hfield, ih⟩

/-- No class of a value is missing if and only if all are known. -/
theorem find?_classes_eq_none_iff {v : Value} :
    v.classes.find? (fun name => !hasClass name) = none ↔
      ∀ name, v.Mentions name → hasClass name = true := by
  simp only [List.find?_eq_none, mem_classes_iff, Bool.not_eq_true', Bool.not_eq_false]

mutual
/-- The first listed class that is not known is the first one that is missing. -/
theorem firstMissing_of_find? : (v : Value) →
    v.classes.find? (fun name => !hasClass name) = some name → v.FirstMissing hasClass name
  | object className fields, h => by
    rw [classes, List.find?_cons] at h
    cases hown : hasClass className with
    | false =>
      rw [hown] at h
      obtain rfl := Option.some.inj h
      exact .own _ hown
    | true =>
      rw [hown] at h
      obtain ⟨before, field, after, rfl, hbefore, hfield⟩ := firstMissing_of_find?_fields fields h
      exact .nested hown hbefore hfield
  | null, h | bool _, h | int _, h | text _, h | bytes _, h => by cases h
/-- The first listed class of fields that is not known is that of the first field that has one. -/
theorem firstMissing_of_find?_fields : (fields : List (String × Value)) →
    (fieldClasses fields).find? (fun name => !hasClass name) = some name →
      ∃ before field after, fields = before ++ field :: after ∧
        (∀ earlier ∈ before, ∀ known, earlier.2.Mentions known → hasClass known = true) ∧
        field.2.FirstMissing hasClass name
  | [], h => by cases h
  | (key, v) :: rest, h => by
    rw [fieldClasses, List.find?_append] at h
    cases hv : v.classes.find? (fun name => !hasClass name) with
    | some first =>
      rw [hv, Option.some_or] at h
      have hfirst := firstMissing_of_find? v (hv.trans h)
      exact ⟨[], (key, v), rest, rfl, List.forall_mem_nil _, hfirst⟩
    | none =>
      rw [hv, Option.none_or] at h
      obtain ⟨before, field, after, rfl, hbefore, hfield⟩ := firstMissing_of_find?_fields rest h
      refine ⟨(key, v) :: before, field, after, rfl, ?_, hfield⟩
      exact List.forall_mem_cons.mpr ⟨find?_classes_eq_none_iff.mp hv, hbefore⟩
end

/-- The first class of a value that is missing is the first listed one that is not known. -/
theorem find?_classes_eq_some_iff {v : Value} :
    v.classes.find? (fun name => !hasClass name) = some name ↔ v.FirstMissing hasClass name := by
  refine ⟨firstMissing_of_find? v, fun h => ?_⟩
  induction h with
  | own fields hmissing =>
    rw [classes, List.find?_cons_of_pos]
    rw [hmissing, Bool.not_false]
  | @nested className name before after field hown hbefore _ ih =>
    have hnone : (before.flatMap fun field => field.2.classes).find? (fun name => !hasClass name) =
        none := by
      rw [List.find?_eq_none]
      intro other hother
      obtain ⟨f, hf, hmem⟩ := List.mem_flatMap.mp hother
      rw [hbefore f hf other (mem_classes_iff.mp hmem), Bool.not_true]
      exact Bool.false_ne_true
    rw [classes, List.find?_cons_of_neg (by rw [hown]; decide), fieldClasses_eq_flatMap,
      List.flatMap_append, List.flatMap_cons, List.find?_append, hnone, Option.none_or,
      List.find?_append, ih, Option.some_or]

/-- The check of a value passes if all its classes are known. -/
theorem checkClasses_eq_ok_iff {v : Value} :
    v.checkClasses hasClass = .ok () ↔ ∀ name, v.Mentions name → hasClass name = true := by
  rw [← find?_classes_eq_none_iff, checkClasses]
  cases v.classes.find? fun name => !hasClass name <;> simp

/-- The check of a value fails for its first class that is missing. -/
theorem checkClasses_eq_error_iff {v : Value} {err : UnmarshalError} :
    v.checkClasses hasClass = .error err ↔
      ∃ name, v.FirstMissing hasClass name ∧ err = .classNotFound name := by
  simp only [← find?_classes_eq_some_iff, checkClasses]
  cases v.classes.find? fun name => !hasClass name <;> simp [eq_comm]

/-- The class of a field comes behind that of its object, and before those of later fields. -/
example : (object "Order" [("id", .int 7),
    ("buyer", .object "Person" [("home", .object "City" [])]),
    ("item", .object "Book" [])]).checkClasses (· == "Order") =
      .error (.classNotFound "Person") := by rfl

end Enlistment.Value
