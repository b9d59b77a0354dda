import Enlistment.Value.Encoding

/-!
# Values read back

A value comes back from its binary form, whatever is behind it. A number takes at most eight
octets besides its tag, so the lengths in a value have to be below `2 ^ 64`. They are in a value
whose form is shorter than that, and in every value that is read.
-/

namespace Enlistment

/-! ## Numbers -/

namespace Varint

/-- A number of a fixed width is read back. -/
theorem decodeFixed_littleEndian {width n : Nat} (h : n < Nat.pow 256 width) (rest : Bytes) :
    decodeFixed width (Bytes.littleEndian width n ++ rest) = .ok (n, rest) := by
  have hlength := Bytes.length_littleEndian width n
  have hlong : ¬ (Bytes.littleEndian width n ++ rest).length < width := by
    rw [List.length_append]
    omega
  rw [decodeFixed, if_neg hlong, List.take_left' hlength, List.drop_left' hlength,
    Bytes.toNat_littleEndian h]

/-- A number is read back from its shortest form. -/
theorem decode_encode {kind : Kind} (hkind : kind ≠ .variantIndex) {n : Nat}
    (h : n < 0x10000000000000000) (rest : Bytes) :
    decode kind (encode n ++ rest) = .ok (n, rest) := by
  unfold encode
  split
  · next hn =>
    have htoNat : (UInt8.ofNat n).toNat = n :=
      UInt8.toNat_ofNat_of_lt' (Nat.lt_of_lt_of_le hn (by decide))
    have hsmall : UInt8.ofNat n < 251 := by
      rw [UInt8.lt_iff_toNat_lt, htoNat]
      exact hn
    rw [List.singleton_append, decode, if_pos hsmall, htoNat]
  · split
    · next hn =>
      have hfits : n < Nat.pow 256 2 := hn
      exact decodeFixed_littleEndian hfits rest
    · split
      · next hn =>
        have hfits : n < Nat.pow 256 4 := hn
        exact decodeFixed_littleEndian hfits rest
      · have hwide : (253 : UInt8) = 253 ∧ kind ≠ .variantIndex := ⟨rfl, hkind⟩
        show (if (253 : UInt8) = 253 ∧ kind ≠ .variantIndex then _ else _) = _
        have hfits : n < Nat.pow 256 8 := h
        rw [if_pos hwide]
        exact decodeFixed_littleEndian hfits rest

/-- A form is not empty. -/
theorem one_le_length_encode (n : Nat) : 1 ≤ (encode n).length := by
  unfold encode
  split
  · exact Nat.le_refl 1
  · split
    · exact Nat.le_add_left 1 _
    · split <;> exact Nat.le_add_left 1 _

/-- A number of a fixed width that is read has this width. -/
theorem decodeFixed_lt {width : Nat} {bs : Bytes} {read : Nat × Bytes}
    (h : decodeFixed width bs = .ok read) : read.1 < Nat.pow 256 width := by
  unfold decodeFixed at h
  split at h
  · cases h
  · next hlong =>
    rw [← Except.ok.inj h]
    have hlength : (bs.take width).length = width := by
      rw [List.length_take]
      omega
    have hlt := Bytes.toNat_lt (bs.take width)
    rwa [hlength] at hlt

/-- A number that is read has 64 bits. -/
theorem decode_lt {kind : Kind} {bs : Bytes} {read : Nat × Bytes} (h : decode kind bs = .ok read) :
    read.1 < 0x10000000000000000 := by
  cases bs with
  | nil => cases h
  | cons tag rest =>
    simp only [decode] at h
    split at h
    · rw [← Except.ok.inj h]
      have htag := tag.toNat_lt
      show tag.toNat < _
      omega
    · split at h
      · exact Nat.lt_trans (decodeFixed_lt h) (by decide)
      · split at h
        · exact Nat.lt_trans (decodeFixed_lt h) (by decide)
        · split at h
          · exact Nat.lt_of_lt_of_le (decodeFixed_lt h) (by decide)
          · cases h

/-- The number that stands for a signed one fits. -/
theorem zigzag_lt (n : Int64) : zigzag n < 0x10000000000000000 := by
  have hlow := n.le_toInt
  have hhigh := n.toInt_lt
  unfold zigzag
  split <;> omega

/-- A signed number comes back from the one that stands for it. -/
theorem unzigzag_zigzag (n : Int64) : unzigzag (zigzag n) = n := by
  unfold zigzag
  split
  · next h =>
    have heven : (2 * n.toInt).toNat % 2 = 0 := by omega
    have hhalf : (2 * n.toInt).toNat / 2 = n.toInt.toNat := by omega
    rw [unzigzag, if_pos heven, hhalf, ← Int64.ofInt_eq_ofNat, Int.toNat_of_nonneg h, Int64.ofInt_toInt]
  · next h =>
    have hodd : ¬ (-2 * n.toInt - 1).toNat % 2 = 0 := by omega
    have hhalf : (-(((-2 * n.toInt - 1).toNat / 2 : Nat) : Int) - 1) = n.toInt := by omega
    rw [unzigzag, if_neg hodd, hhalf, Int64.ofInt_toInt]

end Varint

/-! ## Values that fit -/

namespace Value

mutual
/-- The lengths in a value are numbers of 64 bits. -/
def Fits : Value → Prop
  | text s => (Bytes.ofText s).length < 0x10000000000000000
  | bytes bs => bs.length < 0x10000000000000000
  | object className fields =>
    (Bytes.ofText className).length < 0x10000000000000000 ∧
      fields.length < 0x10000000000000000 ∧ FieldsFit fields
  | _ => True
/-- The lengths in some fields are numbers of 64 bits. -/
def FieldsFit : List (String × Value) → Prop
  | [] => True
  | (name, v) :: rest =>
    (Bytes.ofText name).length < 0x10000000000000000 ∧ Fits v ∧ FieldsFit rest
end

/-- Fields take at least one octet each. -/
theorem length_le_encodeFields (fields : List (String × Value)) :
    fields.length ≤ (encodeFields fields).length := by
  induction fields with
  | nil => exact Nat.le_refl 0
  | cons field fields ih =>
    have hname : 1 ≤ (encodeText field.1).length := by
      have hlength := Varint.one_le_length_encode (Bytes.ofText field.1).length
      rw [encodeText, List.length_append]
      omega
    rw [encodeFields, List.length_append, List.length_append, List.length_cons]
    omega

mutual
/-- A value whose form is short enough fits. -/
theorem fits_of_length_encode : (v : Value) → v.encode.length < 0x10000000000000000 → v.Fits
  | null, _ | bool _, _ | int _, _ => trivial
  | text s, h => by
    rw [encode, List.length_cons, encodeText, List.length_append] at h
    show (Bytes.ofText s).length < _
    omega
  | bytes bs, h => by
    rw [encode, List.length_cons, List.length_append] at h
    show bs.length < _
    omega
  | object className fields, h => by
    have hcount := length_le_encodeFields fields
    rw [encode, List.length_cons, List.length_append, List.length_append, encodeText,
      List.length_append] at h
    exact ⟨by omega, by omega, fieldsFit_of_length_encodeFields fields (by omega)⟩
/-- Fields whose form is short enough fit. -/
theorem fieldsFit_of_length_encodeFields : (fields : List (String × Value)) →
    (encodeFields fields).length < 0x10000000000000000 → FieldsFit fields
  | [], _ => trivial
  | (name, v) :: rest, h => by
    rw [encodeFields, List.length_append, List.length_append, encodeText, List.length_append] at h
    exact ⟨by omega, fits_of_length_encode v (by omega),
      fieldsFit_of_length_encodeFields rest (by omega)⟩
end

/-! ## Reading back -/

/-- A number is read back. -/
theorem decodeNumber_encode {kind : Varint.Kind} (hkind : kind ≠ .variantIndex) {n : Nat}
    (h : n < 0x10000000000000000) (rest : Bytes) :
    decodeNumber kind (Varint.encode n ++ rest) = .ok (n, rest) := by
  rw [decodeNumber, Varint.decode_encode hkind h]
  rfl

/-- The index of a kind of value is read back. -/
theorem decodeNumber_index {index : UInt8} (h : index < 251) (rest : Bytes) :
    decodeNumber .variantIndex (index :: rest) = .ok (index.toNat, rest) := by
  rw [decodeNumber, Varint.decode, if_pos h]
  rfl

/-- A text is read back. -/
theorem decodeText_encodeText {s : String} (h : (Bytes.ofText s).length < 0x10000000000000000)
    (rest : Bytes) : decodeText (encodeText s ++ rest) = .ok (s, rest) := by
  have hlong : ¬ (Bytes.ofText s ++ rest).length < (Bytes.ofText s).length := by
    rw [List.length_append]
    omega
  rw [encodeText, List.append_assoc, decodeText, decodeNumber_encode (by decide) h]
  simp only [bind, Except.bind, if_neg hlong, List.take_left, Bytes.toText?_ofText,
    List.drop_left]

/-- A list of octets is read back. -/
theorem decodeOctets_encode {bs : Bytes} (h : bs.length < 0x10000000000000000) (rest : Bytes) :
    decodeOctets (Varint.encode bs.length ++ bs ++ rest) = .ok (bs, rest) := by
  have hlong : ¬ (bs ++ rest).length < bs.length := by
    rw [List.length_append]
    omega
  rw [List.append_assoc, decodeOctets, decodeNumber_encode (by decide) h]
  simp only [bind, Except.bind, if_neg hlong, List.take_left, List.drop_left]

mutual
/-- A value that fits is read back, if the reader goes deep enough. -/
theorem decodeNested_encode : (v : Value) → (depth : Nat) → (rest : Bytes) → v.Fits →
    v.encode.length ≤ depth → decodeNested depth (v.encode ++ rest) = .ok (v, rest)
  | v, 0, _, _, hdepth => by
    cases v <;> simp [encode] at hdepth
  | null, depth + 1, rest, _, _ => rfl
  | bool b, depth + 1, rest, _, _ => by cases b <;> rfl
  | int n, depth + 1, rest, _, _ => by
    rw [encode, List.cons_append, decodeNested, decodeNumber_index (by decide)]
    show (do
      let (m, bs) ← decodeNumber .signed (Varint.encode (Varint.zigzag n) ++ rest)
      Except.ok (int (Varint.unzigzag m), bs)) = _
    rw [decodeNumber_encode (by decide) (Varint.zigzag_lt n)]
    simp only [bind, Except.bind, Varint.unzigzag_zigzag]
  | text s, depth + 1, rest, hfits, _ => by
    rw [encode, List.cons_append, decodeNested, decodeNumber_index (by decide)]
    show (do
      let (s, bs) ← decodeText (encodeText s ++ rest)
      Except.ok (text s, bs)) = _
    rw [decodeText_encodeText hfits]
    rfl
  | bytes bs, depth + 1, rest, hfits, _ => by
    rw [encode, List.cons_append, decodeNested, decodeNumber_index (by decide)]
    show (do
      let (octets, bs) ← decodeOctets (Varint.encode bs.length ++ bs ++ rest)
      Except.ok (bytes octets, bs)) = _
    rw [decodeOctets_encode hfits]
    rfl
  | object className fields, depth + 1, rest, hfits, hdepth => by
    obtain ⟨hname, hcount, hfields⟩ := hfits
    rw [encode, List.length_cons, List.length_append, List.length_append] at hdepth
    rw [encode, List.cons_append, decodeNested, decodeNumber_index (by decide)]
    show (do
      let (className, bs) ← decodeText
        (encodeText className ++ Varint.encode fields.length ++ encodeFields fields ++ rest)
      let (count, bs) ← decodeNumber .listLength bs
      let (fields, bs) ← decodeFields (decodeNested depth) count bs
      Except.ok (object className fields, bs)) = _
    simp only [List.append_assoc]
    rw [decodeText_encodeText hname]
    simp only [bind, Except.bind]
    rw [decodeNumber_encode (by decide) hcount]
    simp only
    rw [decodeFields_encode fields depth rest hfields (by omega)]
/-- Fields that fit are read back. -/
theorem decodeFields_encode : (fields : List (String × Value)) → (depth : Nat) →
    (rest : Bytes) → FieldsFit fields → (encodeFields fields).length ≤ depth →
    decodeFields (decodeNested depth) fields.length (encodeFields fields ++ rest) =
      .ok (fields, rest)
  | [], _, _, _, _ => rfl
  | (name, v) :: fields, depth, rest, hfits, hdepth => by
    obtain ⟨hname, hv, hfields⟩ := hfits
    rw [encodeFields, List.length_append, List.length_append] at hdepth
    rw [encodeFields, List.length_cons, decodeFields]
    simp only [List.append_assoc]
    rw [decodeText_encodeText hname]
    simp only [bind, Except.bind]
    rw [decodeNested_encode v depth _ hv (by omega)]
    simp only
    rw [decodeFields_encode fields depth rest hfields (by omega)]
end

/-- A value that fits is read back from its form, and what is behind it is left. -/
theorem Fits.decodeWithRest_encode {v : Value} (h : v.Fits) (rest : Bytes) :
    decodeWithRest (v.encode ++ rest) = .ok (v, rest) := by
  refine decodeNested_encode v _ rest h ?_
  rw [List.length_append]
  omega

/-- A value that fits is read back from its form. -/
theorem Fits.decode_encode {v : Value} (h : v.Fits) : decode v.encode = .ok v := by
  have hread := h.decodeWithRest_encode []
  rw [List.append_nil] at hread
  rw [decode, hread]
  rfl

/-- A value is read back from its form. -/
theorem decode_encode {v : Value} (h : v.encode.length < 0x10000000000000000) :
    decode v.encode = .ok v :=
  (fits_of_length_encode v h).decode_encode

/-! ## Values that are read -/

/-- A number that is read has 64 bits. -/
theorem decodeNumber_lt {kind : Varint.Kind} {bs rest : Bytes} {n : Nat}
    (h : decodeNumber kind bs = .ok (n, rest)) : n < 0x10000000000000000 := by
  unfold decodeNumber at h
  cases hread : Varint.decode kind bs with
  | error e =>
    rw [hread] at h
    cases h
  | ok read =>
    rw [hread] at h
    obtain rfl := Except.ok.inj h
    exact Varint.decode_lt hread

/-- A text that is read is as long as the number before it says. -/
theorem decodeText_fits {bs rest : Bytes} {s : String} (h : decodeText bs = .ok (s, rest)) :
    (Bytes.ofText s).length < 0x10000000000000000 := by
  unfold decodeText at h
  cases hnumber : decodeNumber .textLength bs with
  | error e =>
    rw [hnumber] at h
    cases h
  | ok read =>
    obtain ⟨length, behind⟩ := read
    simp only [hnumber, bind, Except.bind] at h
    split at h
    · cases h
    · split at h
      · next text htext =>
        obtain ⟨rfl, -⟩ := Prod.mk.inj (Except.ok.inj h)
        rw [Bytes.ofText_of_toText? htext, List.length_take]
        have hlength := decodeNumber_lt hnumber
        omega
      · cases h

/-- Octets that are read are as many as the number before them says. -/
theorem decodeOctets_lt {bs rest octets : Bytes} (h : decodeOctets bs = .ok (octets, rest)) :
    octets.length < 0x10000000000000000 := by
  unfold decodeOctets at h
  cases hnumber : decodeNumber .listLength bs with
  | error e =>
    rw [hnumber] at h
    cases h
  | ok read =>
    simp only [hnumber, bind, Except.bind] at h
    split at h
    · cases h
    · obtain ⟨rfl, -⟩ := Prod.mk.inj (Except.ok.inj h)
      have hlength := decodeNumber_lt hnumber
      rw [List.length_take]
      omega

/-- Fields that are read fit if values that are read do, and they are as many as asked for. -/
theorem decodeFields_fit {value : Bytes → Except DecodeError (Value × Bytes)}
    (hvalue : ∀ bs v rest, value bs = .ok (v, rest) → v.Fits) {count : Nat} {bs rest : Bytes}
    {fields : List (String × Value)} (h : decodeFields value count bs = .ok (fields, rest)) :
    FieldsFit fields ∧ fields.length = count := by
  induction count generalizing bs rest fields with
  | zero =>
    obtain ⟨rfl, -⟩ := Prod.mk.inj (Except.ok.inj h)
    exact ⟨trivial, rfl⟩
  | succ count ih =>
    unfold decodeFields at h
    cases hname : decodeText bs with
    | error e =>
      simp only [hname, bind, Except.bind] at h
      cases h
    | ok name =>
      cases hv : value name.2 with
      | error e =>
        simp only [hname, hv, bind, Except.bind] at h
        cases h
      | ok v =>
        cases hothers : decodeFields value count v.2 with
        | error e =>
          simp only [hname, hv, hothers, bind, Except.bind] at h
          cases h
        | ok others =>
          simp only [hname, hv, hothers, bind, Except.bind] at h
          obtain ⟨rfl, -⟩ := Prod.mk.inj (Except.ok.inj h)
          obtain ⟨hfits, hcount⟩ := ih hothers
          exact ⟨⟨decodeText_fits hname, hvalue _ _ _ hv, hfits⟩, congrArg Nat.succ hcount⟩

/-- A value that is read fits, however deep the reader goes. -/
theorem decodeNested_fits {depth : Nat} {bs rest : Bytes} {v : Value}
    (h : decodeNested depth bs = .ok (v, rest)) : v.Fits := by
  induction depth generalizing bs rest v with
  | zero => cases h
  | succ depth ih =>
    unfold decodeNested at h
    cases hindex : decodeNumber .variantIndex bs with
    | error e =>
      simp only [hindex, bind, Except.bind] at h
      cases h
    | ok read =>
      obtain ⟨index, behind⟩ := read
      simp only [hindex, bind, Except.bind] at h
      split at h
      · obtain ⟨rfl, -⟩ := Prod.mk.inj (Except.ok.inj h)
        trivial
      · cases h
      · split at h
        · obtain ⟨rfl, -⟩ := Prod.mk.inj (Except.ok.inj h)
          trivial
        · split at h
          · obtain ⟨rfl, -⟩ := Prod.mk.inj (Except.ok.inj h)
            trivial
          · cases h
      · split at h
        · cases h
        · obtain ⟨rfl, -⟩ := Prod.mk.inj (Except.ok.inj h)
          trivial
      · split at h
        · cases h
        · next text htext =>
          obtain ⟨rfl, -⟩ := Prod.mk.inj (Except.ok.inj h)
          exact decodeText_fits htext
      · split at h
        · cases h
        · next octets hoctets =>
          obtain ⟨rfl, -⟩ := Prod.mk.inj (Except.ok.inj h)
          exact decodeOctets_lt hoctets
      · split at h
        · cases h
        · next name hname =>
          split at h
          · cases h
          · next count hcount =>
            split at h
            · cases h
            · next fields hfields =>
              obtain ⟨rfl, -⟩ := Prod.mk.inj (Except.ok.inj h)
              obtain ⟨hfits, hlength⟩ := decodeFields_fit (fun _ _ _ hv => ih hv) hfields
              exact ⟨decodeText_fits hname, hlength ▸ decodeNumber_lt hcount, hfits⟩
      · cases h

/-- A value that is read fits. -/
theorem decode_fits {bs : Bytes} {v : Value} (h : decode bs = .ok v) : v.Fits := by
  unfold decode decodeWithRest at h
  cases hread : decodeNested (bs.length + 1) bs with
  | error e =>
    rw [hread] at h
    cases h
  | ok read =>
    rw [hread] at h
    obtain rfl := Except.ok.inj h
    exact decodeNested_fits hread

end Value

end Enlistment
