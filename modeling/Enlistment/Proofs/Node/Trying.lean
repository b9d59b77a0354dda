import Enlistment.Node.Staging
import Enlistment.Proofs.Store.Changes

/-!
# Trying one row

What a row does is decided by the lock on its key and by the current value of its key. A row
that changes anything locks its key, which no other transaction has locked. The position of a
row shows in the wording of a failure and nowhere else.
-/

namespace Enlistment

variable {σ : Type}

/-- The owner of the lock on a key, if it is not the transaction with a given lock version. -/
def Store.rival (s : Store) (lock : LockVersion) (key : Bytes) : Option LockVersion :=
  (s.lockOwner key).filter fun owner => owner != lock

/-- A key has no rival if nobody has locked it but the transaction itself. -/
theorem Store.rival_eq_none_iff {s : Store} {lock : LockVersion} {key : Bytes} :
    s.rival lock key = none ↔ ∀ owner, s.lockOwner key = some owner → owner = lock := by
  rw [rival, Option.filter_eq_none_iff]
  simp only [bne_iff_ne, ne_eq, Decidable.not_not]

/-- The rival of a transaction at a key is another one that has locked it. -/
theorem Store.rival_eq_some_iff {s : Store} {lock owner : LockVersion} {key : Bytes} :
    s.rival lock key = some owner ↔ s.lockOwner key = some owner ∧ owner ≠ lock := by
  rw [rival, Option.filter_eq_some_iff, bne_iff_ne]

/-! ## The outcome of a row -/

/-- What a row does if no other transaction has locked its key, given the current value. -/
def acceptedOutcome (ctx : ApplyContext σ) (index : Nat) (row : EnlistedRow σ)
    (current : Except EnlistError (Option Value)) (state : σ) : Except EnlistError RowEffect × σ :=
  let keyValue := row.keyObject.value.getD .null
  match current with
  | .error e => (.error e, state)
  | .ok current =>
    match ctx.filter.map fun filter => filter.evaluate state keyValue current with
    | some (false, state) =>
      (.ok { RowEffect.skipped (EnlistError.predicateFailure index).message with
        returned := .ofValue current }, state)
    | accepted =>
      let r := rowEffect ctx.op row keyValue current ((accepted.map Prod.snd).getD state)
      (.ok r.1, r.2)

/-- What a row does, given the other transaction that has locked its key, if there is one, and
the current value. -/
def rowOutcome (ctx : ApplyContext σ) (index : Nat) (row : EnlistedRow σ)
    (rival : Option LockVersion) (current : Except EnlistError (Option Value)) (state : σ) :
    Except EnlistError RowEffect × σ :=
  match row.keyObject.bytes, rival with
  | none, _ => (.ok (.skipped "key is not marshalled"), state)
  | some _, some owner => (.ok (.skipped ("locked by " ++ owner.render)), state)
  | some _, none => acceptedOutcome ctx index row current state

/-- Whether a row has the shape that an operation takes. -/
def EnlistedRow.Fits (op : Operation) : EnlistedRow σ → Prop
  | key _ => op.isDeleteOrLock = true
  | entry _ _ => op.isDeleteOrLock = false ∧ op.isInvoke = false
  | invoke _ _ => op.isInvoke = true

/-- The octets of the key of a row, empty if the key is not marshalled. -/
def EnlistedRow.keyBytes (row : EnlistedRow σ) : Bytes := row.keyObject.bytes.getD []

/-- The octets of a key that is marshalled. -/
theorem EnlistedRow.keyBytes_eq {row : EnlistedRow σ} {key : Bytes}
    (hkey : row.keyObject.bytes = some key) : row.keyBytes = key := by
  rw [keyBytes, hkey, Option.getD_some]

/-- Trying a row adds its outcome to what is staged. -/
theorem stageRow_eq (store : Store) (ctx : ApplyContext σ) (index : Nat) (row : EnlistedRow σ)
    (s : Staged) (state : σ) :
    stageRow store ctx index row s state =
      match rowOutcome ctx index row (store.rival ctx.lock row.keyBytes)
        (currentValue store ctx s.batch row.keyBytes) state with
      | (.error e, state) => (.error e, state)
      | (.ok effect, state) => (.ok (s.add ctx index row.keyBytes effect), state) := by
  have htry : ∀ key, stageRow.tryRow store ctx index row s state key =
      match acceptedOutcome ctx index row (currentValue store ctx s.batch key) state with
      | (.error e, state) => (.error e, state)
      | (.ok effect, state) => (.ok (s.add ctx index key effect), state) := by
    intro key
    unfold stageRow.tryRow acceptedOutcome
    cases currentValue store ctx s.batch key with
    | error e => rfl
    | ok current =>
      dsimp only
      generalize ctx.filter.map (fun filter =>
        filter.evaluate state (row.keyObject.value.getD .null) current) = verdict
      rcases verdict with _ | ⟨_ | _, state'⟩ <;> rfl
  unfold stageRow rowOutcome Store.rival EnlistedRow.keyBytes
  cases row.keyObject.bytes with
  | none => rfl
  | some key =>
    simp only [Option.getD_some]
    cases store.lockOwner key with
    | none => exact htry key
    | some owner =>
      by_cases hother : owner = ctx.lock
      · have hnone : (some owner).filter (fun held => held != ctx.lock) = none := by
          simp [hother]
        have hsame : ¬ owner ≠ ctx.lock := fun hne => hne hother
        simp only [if_neg hsame, hnone]
        exact htry key
      · have hsome : (some owner).filter (fun held => held != ctx.lock) = some owner := by
          simp [hother]
        have hne : owner ≠ ctx.lock := hother
        simp only [if_pos hne, hsome]

/-! ## Possible effects -/

/-- An effect that a row may have. A row is refused and changes nothing, or it is applied and its
key is locked; what an applied row reports stands in the way of its write. -/
inductive RowEffect.Possible : RowEffect → Prop
  | refused (reason : String) (seen : Option Value) :
      Possible { RowEffect.skipped reason with returned := .ofValue seen }
  | applied (returned : Option Value) (written : Option (Option Bytes)) :
      Possible (.applied returned written)
  | hindered (reason : String) (seen : Option Value) :
      Possible { RowEffect.applied seen none with failure := some reason }

/-- The effect of an accepted row is possible. The cases are the operations with the rows that
they take, and all other pairs. -/
theorem rowEffect_possible (op : Operation) (row : EnlistedRow σ) (key : Value)
    (current : Option Value) (state : σ) : (rowEffect op row key current state).1.Possible := by
  unfold rowEffect
  split
  · split
    · exact .hindered _ current
    · exact .applied current _
  · exact .applied current _
  · exact .applied current _
  · exact .applied current _
  · exact .applied current none
  · split
    · exact .refused _ none
    · dsimp only
      split
      · exact .refused _ none
      · exact .applied _ _
  · exact .refused _ none

/-- The effect of a row is possible, if no other transaction has locked its key. -/
theorem acceptedOutcome_possible {ctx : ApplyContext σ} {index : Nat} {row : EnlistedRow σ}
    {current : Except EnlistError (Option Value)} {state state' : σ} {effect : RowEffect}
    (h : acceptedOutcome ctx index row current state = (.ok effect, state')) :
    effect.Possible := by
  unfold acceptedOutcome at h
  cases current with
  | error e => cases h
  | ok current =>
    dsimp only at h
    split at h
    · obtain rfl := Except.ok.inj (Prod.mk.inj h).1
      exact .refused _ current
    · obtain rfl := Except.ok.inj (Prod.mk.inj h).1
      exact rowEffect_possible ..

/-- The effect of a row is possible. -/
theorem rowOutcome_possible {ctx : ApplyContext σ} {index : Nat} {row : EnlistedRow σ}
    {rival : Option LockVersion} {current : Except EnlistError (Option Value)} {state state' : σ}
    {effect : RowEffect} (h : rowOutcome ctx index row rival current state = (.ok effect, state')) :
    effect.Possible := by
  unfold rowOutcome at h
  split at h
  · obtain rfl := Except.ok.inj (Prod.mk.inj h).1
    exact .refused _ none
  · obtain rfl := Except.ok.inj (Prod.mk.inj h).1
    exact .refused _ none
  · exact acceptedOutcome_possible h

/-- A row that writes reports nothing. -/
theorem RowEffect.Possible.failure_eq_none {e : RowEffect} (h : e.Possible)
    (hwritten : e.written.isSome = true) : e.failure = none := by
  cases h with
  | refused | hindered => cases hwritten
  | applied => rfl

/-- The slot of a row in the results holds a value or none, whatever became of the row. -/
theorem RowEffect.Possible.returned_eq {e : RowEffect} (h : e.Possible) :
    ∃ v, e.returned = .ofValue v := by
  cases h <;> exact ⟨_, rfl⟩

/-! ## Rows that change something -/

/-- An effect that changes nothing, or that locks the key. -/
structure RowEffect.LocksIfWrites (e : RowEffect) : Prop where
  locks : e.written.isSome = true → e.locks = true

/-- A row that writes locks its key. -/
theorem rowOutcome_locksIfWrites {ctx : ApplyContext σ} {index : Nat} {row : EnlistedRow σ}
    {rival : Option LockVersion} {current : Except EnlistError (Option Value)} {state state' : σ}
    {effect : RowEffect} (h : rowOutcome ctx index row rival current state = (.ok effect, state')) :
    effect.LocksIfWrites := by
  refine ⟨fun hwritten => ?_⟩
  cases rowOutcome_possible h with
  | refused => cases hwritten
  | applied | hindered => rfl

/-- A row that locks its key does so only if no other transaction has locked it. -/
theorem rowOutcome_rival {ctx : ApplyContext σ} {index : Nat} {row : EnlistedRow σ}
    {rival : Option LockVersion} {current : Except EnlistError (Option Value)} {state state' : σ}
    {effect : RowEffect} (h : rowOutcome ctx index row rival current state = (.ok effect, state'))
    (hlocks : effect.locks = true) : rival = none := by
  unfold rowOutcome at h
  split at h
  · obtain rfl := Except.ok.inj (Prod.mk.inj h).1
    cases hlocks
  · obtain rfl := Except.ok.inj (Prod.mk.inj h).1
    cases hlocks
  · rfl

/-! ## Rows at other positions -/

/-- Two effects that differ in the wording of their failures at most. -/
structure RowEffect.Agrees (a b : RowEffect) : Prop where
  failure : a.failure.isSome = b.failure.isSome
  returned : a.returned = b.returned
  locks : a.locks = b.locks
  written : a.written = b.written

/-- An effect agrees with itself. -/
theorem RowEffect.Agrees.refl (e : RowEffect) : e.Agrees e := ⟨rfl, rfl, rfl, rfl⟩

/-- An accepted row does the same at another position. -/
theorem acceptedOutcome_agrees {ctx : ApplyContext σ} {index : Nat} {row : EnlistedRow σ}
    {current : Except EnlistError (Option Value)} {state state' : σ} {effect : RowEffect}
    (h : acceptedOutcome ctx index row current state = (.ok effect, state')) (index' : Nat) :
    ∃ effect', acceptedOutcome ctx index' row current state = (.ok effect', state') ∧
      effect.Agrees effect' := by
  unfold acceptedOutcome at h ⊢
  cases current with
  | error e => cases h
  | ok current =>
    dsimp only at h ⊢
    split at h
    · next hrejected =>
      obtain ⟨heffect, rfl⟩ := Prod.mk.inj h
      obtain rfl := Except.ok.inj heffect
      exact ⟨_, rfl, rfl, rfl, rfl, rfl⟩
    · next haccepted =>
      obtain ⟨heffect, rfl⟩ := Prod.mk.inj h
      obtain rfl := Except.ok.inj heffect
      exact ⟨_, rfl, .refl _⟩

/-- A row does the same at another position. -/
theorem rowOutcome_agrees {ctx : ApplyContext σ} {index : Nat} {row : EnlistedRow σ}
    {rival : Option LockVersion} {current : Except EnlistError (Option Value)}
    {state state' : σ} {effect : RowEffect}
    (h : rowOutcome ctx index row rival current state = (.ok effect, state')) (index' : Nat) :
    ∃ effect', rowOutcome ctx index' row rival current state = (.ok effect', state') ∧
      effect.Agrees effect' := by
  unfold rowOutcome at h ⊢
  split at h
  · exact ⟨effect, h, .refl effect⟩
  · exact ⟨effect, h, .refl effect⟩
  · exact acceptedOutcome_agrees h index'

end Enlistment
