import Enlistment.CacheObject
import Enlistment.Proofs.Store.Changes
import Enlistment.Proofs.Value.RoundTrip

/-!
# Values told apart by their octets

The binary form of a value tells where it ends, so no form is the start of another one, whatever
is behind it. A store knows keys by their octets alone. It keeps one row and one lock for two keys
if they are equal, and rows and locks of their own if they are not.
-/

namespace Enlistment

namespace Value

/-- A value that fits is read back from its form with anything behind it. -/
theorem Fits.decode_append {v : Value} (h : v.Fits) (rest : Bytes) :
    decode (v.encode ++ rest) = .ok v := by
  rw [decode, h.decodeWithRest_encode]
  rfl

/-- Values that fit, and what is behind them, can be told from the octets. -/
theorem Fits.encode_append_inj {v w : Value} (hv : v.Fits) (hw : w.Fits) {rest rest' : Bytes} :
    v.encode ++ rest = w.encode ++ rest' ↔ v = w ∧ rest = rest' := by
  constructor
  · intro h
    have hread : Except.ok (v, rest) = Except.ok (w, rest') :=
      calc Except.ok (v, rest)
        _ = decodeWithRest (v.encode ++ rest) := (hv.decodeWithRest_encode rest).symm
        _ = decodeWithRest (w.encode ++ rest') := by rw [h]
        _ = .ok (w, rest') := hw.decodeWithRest_encode rest'
    exact Prod.mk.inj (Except.ok.inj hread)
  · rintro ⟨rfl, rfl⟩
    rfl

/-- Values that fit have the same form only if they are equal. -/
theorem Fits.encode_inj {v w : Value} (hv : v.Fits) (hw : w.Fits) :
    v.encode = w.encode ↔ v = w := by
  have hinj : v.encode ++ [] = w.encode ++ [] ↔ v = w ∧ ([] : Bytes) = [] :=
    hv.encode_append_inj hw
  rwa [List.append_nil, List.append_nil, eq_self, and_true] at hinj

end Value

namespace KeyObject

variable {v w : Value} {s : Store}

/-- A put to one key adds a version to another one if the keys are equal, and leaves it alone
otherwise. -/
theorem versions_apply_put_encode (hv : v.Fits) (hw : w.Fits) (hs : s.WellFormed)
    (version : EntryVersion) (value : Option Bytes) :
    (s.apply (.put v.encode version value)).versions w.encode =
      if v = w then Store.putVersion version value (s.versions v.encode)
      else s.versions w.encode := by
  rw [hs.versions_apply_put]
  simp only [hv.encode_inj hw]

/-- A lock on one key is a lock on another one if the keys are equal, and leaves it alone
otherwise. -/
theorem lockOwner_apply_lock_encode (hv : v.Fits) (hw : w.Fits) (owner : LockVersion) :
    (s.apply (.lock v.encode owner)).lockOwner w.encode =
      if v = w then some owner else s.lockOwner w.encode := by
  rw [Store.lockOwner_apply_lock]
  simp only [hv.encode_inj hw]

/-- Octets identify values. Let the lengths in two values be numbers of 64 bits, as they are in all
values that are held in memory. Each value is read back from its form, and what is behind it is
left. Two forms with anything behind them are the same octets only if the values are equal, and what
is behind them too. So the objects of two keys have the same octets exactly if the keys are equal.
In a store a change under the octets of one key then changes the row or the lock under those of the
other key as well if the keys are equal, and leaves them alone if not. -/
theorem identified_by_octets (hv : v.Fits) (hw : w.Fits) :
    (∀ rest, Value.decode (v.encode ++ rest) = .ok v ∧
      Value.decodeWithRest (v.encode ++ rest) = .ok (v, rest)) ∧
    (∀ rest rest', v.encode ++ rest = w.encode ++ rest' ↔ v = w ∧ rest = rest') ∧
    ∀ ctx ctx' : MarshalContext, ∃ k k',
      (ofKey ctx v).bytes = some k ∧ (ofKey ctx' w).bytes = some k' ∧ (k = k' ↔ v = w) ∧
      ∀ s : Store, s.WellFormed →
        (∀ version value, (s.apply (.put k version value)).versions k' =
          if v = w then Store.putVersion version value (s.versions k) else s.versions k') ∧
        ∀ owner, (s.apply (.lock k owner)).lockOwner k' =
          if v = w then some owner else s.lockOwner k' := by
  refine ⟨fun rest => ⟨hv.decode_append rest, hv.decodeWithRest_encode rest⟩,
    fun rest rest' => hv.encode_append_inj hw, fun ctx ctx' => ?_⟩
  refine ⟨v.encode, w.encode, rfl, rfl, hv.encode_inj hw, fun s hs => ⟨?_, ?_⟩⟩
  · exact versions_apply_put_encode hv hw hs
  · exact lockOwner_apply_lock_encode hv hw

/-- A nested object is read back with two octets behind it, and locking it leaves the lock alone on
the text that names its class. -/
theorem identified_by_octets_of_object :
    let v : Value := .object "P" [("a", .int (-3)), ("b", .object "Q" [])]
    let w : Value := .text "P"
    let s : Store := Store.apply {} (.lock w.encode ⟨1, 1, 1⟩)
    Value.decode (v.encode ++ [7, 8]) = .ok v ∧ v.encode ≠ w.encode ∧
      (s.apply (.lock v.encode ⟨1, 2, 1⟩)).lockOwner w.encode = some ⟨1, 1, 1⟩ := by
  intro v w s
  have hv : v.Fits := Value.fits_of_length_encode v (by decide +kernel)
  have hw : w.Fits := Value.fits_of_length_encode w (by decide +kernel)
  obtain ⟨hread, -, hkeys⟩ := identified_by_octets hv hw
  obtain ⟨k, k', hk, hk', hshared, hrows⟩ := hkeys (.ofCache 1 16) (.ofCache 1 16)
  obtain rfl := Option.some.inj hk
  obtain rfl := Option.some.inj hk'
  have hne : v ≠ w := by decide
  have hs : s.WellFormed := Store.WellFormed.empty.apply _
  have hbefore : s.lockOwner w.encode = some ⟨1, 1, 1⟩ := by
    rw [Store.lockOwner_apply_lock, if_pos rfl]
  have howner := (hrows s hs).2 ⟨1, 2, 1⟩
  rw [if_neg hne, hbefore] at howner
  exact ⟨(hread [7, 8]).1, fun h => hne (hshared.mp h), howner⟩

end KeyObject

end Enlistment
