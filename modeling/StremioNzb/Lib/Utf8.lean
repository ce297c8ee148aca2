/-!
# Text among bytes

`IsUtf8 bs` says that the bytes are the UTF-8 encoding of some characters. Text can be put
together and taken apart between its characters only; ASCII can be cut anywhere.
-/

namespace StremioNzb.Lib

def IsUtf8 (bs : List UInt8) : Prop := ∃ cs : List Char, bs = cs.flatMap String.utf8EncodeChar

theorem isUtf8_iff (bs : List UInt8) : bs.toByteArray.IsValidUTF8 ↔ IsUtf8 bs := by
  constructor
  · rintro ⟨cs, h⟩
    exact ⟨cs, by simpa [List.utf8Encode] using congrArg (fun b => b.data.toList) h⟩
  · rintro ⟨cs, rfl⟩
    exact ⟨cs, rfl⟩

instance (bs : List UInt8) : Decidable (IsUtf8 bs) := decidable_of_iff _ (isUtf8_iff bs)

example : IsUtf8 [0xC3, 0xA9] := by decide
example : ¬ IsUtf8 [0xC3] := by decide

theorem isUtf8_nil : IsUtf8 [] := ⟨[], rfl⟩

theorem IsUtf8.append {as bs : List UInt8} (ha : IsUtf8 as) (hb : IsUtf8 bs) :
    IsUtf8 (as ++ bs) := by
  obtain ⟨cs, rfl⟩ := ha
  obtain ⟨ds, rfl⟩ := hb
  exact ⟨cs ++ ds, List.flatMap_append.symm⟩

theorem toNat_ofNat_ascii {n : Nat} (h : n < 128) : (Char.ofNat n).val.toNat = n := by
  have hv : n.isValidChar := .inl (by omega)
  rw [Char.ofNat, dif_pos hv]
  rfl

theorem encode_of_ascii {b : UInt8} (h : b < 128) :
    String.utf8EncodeChar (Char.ofNat b.toNat) = [b] := by
  have hb : b.toNat < 128 := h
  simp only [String.utf8EncodeChar, toNat_ofNat_ascii hb]
  rw [if_pos (by omega), UInt8.ofNat_toNat]

/-- The first byte of a longer encoding is not ASCII. -/
theorem encode_head {c : Char} {b : UInt8} {bs : List UInt8}
    (h : String.utf8EncodeChar c = b :: bs) : b < 128 ↔ bs = [] := by
  have hlt : c.val.toNat < 0x110000 := by
    have := c.valid
    simp only [UInt32.isValidChar, Nat.isValidChar] at this
    omega
  have hmod : ∀ n, (UInt8.ofNat n < 128) ↔ n % 256 < 128 := fun n => by
    rw [UInt8.lt_iff_toNat_lt, UInt8.toNat_ofNat']
    rfl
  simp only [String.utf8EncodeChar] at h
  split at h
  · cases h
    rw [hmod]
    exact iff_of_true (by omega) rfl
  · split at h
    · cases h
      rw [hmod]
      exact iff_of_false (by omega) (List.cons_ne_nil _ _)
    · split at h
      · cases h
        rw [hmod]
        exact iff_of_false (by omega) (List.cons_ne_nil _ _)
      · cases h
        rw [hmod]
        exact iff_of_false (by omega) (List.cons_ne_nil _ _)

theorem isUtf8_cons {b : UInt8} {bs : List UInt8} (hb : b < 128) :
    IsUtf8 (b :: bs) ↔ IsUtf8 bs := by
  constructor
  · rintro ⟨cs, h⟩
    cases cs with
    | nil => cases h
    | cons c cs =>
      rw [List.flatMap_cons] at h
      cases hc : String.utf8EncodeChar c with
      | nil => exact absurd hc String.utf8EncodeChar_ne_nil
      | cons b' bs' =>
        rw [hc, List.cons_append] at h
        obtain ⟨rfl, hbs⟩ := List.cons.inj h
        rw [(encode_head hc).mp hb, List.nil_append] at hbs
        exact ⟨cs, hbs⟩
  · rintro ⟨cs, rfl⟩
    exact ⟨Char.ofNat b.toNat :: cs, by rw [List.flatMap_cons, encode_of_ascii hb]; rfl⟩

theorem isUtf8_of_ascii {bs : List UInt8} (h : ∀ b ∈ bs, b < 128) : IsUtf8 bs := by
  induction bs with
  | nil => exact isUtf8_nil
  | cons b bs ih =>
    rw [isUtf8_cons (h b List.mem_cons_self)]
    exact ih fun b' hb' => h b' (List.mem_cons_of_mem b hb')

/-- The first byte of a longer character on its own is no text, after ASCII either. -/
theorem not_isUtf8_concat {as : List UInt8} {b : UInt8} (has : ∀ a ∈ as, a < 128) (hb : ¬ b < 128) :
    ¬ IsUtf8 (as ++ [b]) := by
  induction as with
  | nil =>
    rintro ⟨cs, h⟩
    cases cs with
    | nil => cases h
    | cons c cs =>
      cases hc : String.utf8EncodeChar c with
      | nil => exact String.utf8EncodeChar_ne_nil hc
      | cons b' bs' =>
        rw [List.nil_append, List.flatMap_cons, hc, List.cons_append] at h
        obtain ⟨rfl, hnil⟩ := List.cons.inj h
        obtain ⟨rfl, -⟩ := List.append_eq_nil_iff.mp hnil.symm
        exact hb ((encode_head hc).mpr rfl)
  | cons a as ih =>
    rw [List.cons_append, isUtf8_cons (has a List.mem_cons_self)]
    exact ih fun a' ha' => has a' (List.mem_cons_of_mem a ha')

/-- Text is cut between its characters into texts of at most four bytes. -/
theorem IsUtf8.exists_pieces {bs : List UInt8} (h : IsUtf8 bs) :
    ∃ pieces : List (List UInt8), pieces.flatten = bs ∧
      ∀ piece ∈ pieces, IsUtf8 piece ∧ piece ≠ [] ∧ piece.length ≤ 4 := by
  obtain ⟨cs, rfl⟩ := h
  refine ⟨cs.map String.utf8EncodeChar, rfl, fun piece hp => ?_⟩
  obtain ⟨c, -, rfl⟩ := List.mem_map.mp hp
  refine ⟨⟨[c], by simp⟩, String.utf8EncodeChar_ne_nil, ?_⟩
  rw [String.length_utf8EncodeChar]
  exact Char.utf8Size_le_four c

end StremioNzb.Lib
