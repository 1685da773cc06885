import Midend.Text.Utf8

/-!
# The bytes of a text

Reading the UTF-8 bytes of a string gives its characters back.

## Main results

* `Symbol.first_encode`: one character.
* `Symbol.ofBytes_toUTF8`: a whole string.
-/

namespace Midend.Text.Symbol

/-! ### Forms of one to four bytes -/

section Forms

variable {b b₁ b₂ b₃ : UInt8} {rest : List UInt8}

theorem isCont_iff : isCont b = true ↔ 0x80 ≤ b.toNat ∧ b.toNat ≤ 0xBF := by
  simp [isCont, UInt8.le_iff_toNat_le]

/-- Which second bytes may follow the first byte of a longer form. -/
theorem mayFollow_of (hcont : 0x80 ≤ b₁.toNat ∧ b₁.toNat ≤ 0xBF)
    (hE0 : b.toNat = 0xE0 → 0xA0 ≤ b₁.toNat) (hED : b.toNat = 0xED → b₁.toNat ≤ 0x9F)
    (hF0 : b.toNat = 0xF0 → 0x90 ≤ b₁.toNat) (hF4 : b.toNat = 0xF4 → b₁.toNat ≤ 0x8F) :
    mayFollow b b₁ = true := by
  have hrange : ∀ low high : UInt8, low.toNat ≤ b₁.toNat → b₁.toNat ≤ high.toNat →
      (low ≤ b₁ && b₁ ≤ high) = true := by
    intro low high hlow hhigh
    simpa [UInt8.le_iff_toNat_le] using ⟨hlow, hhigh⟩
  unfold mayFollow secondByte
  split
  · next hb => exact hrange 0xA0 0xBF (hE0 (by rw [hb]; rfl)) hcont.2
  · split
    · next hb => exact hrange 0x80 0x9F hcont.1 (hED (by rw [hb]; rfl))
    · split
      · next hb => exact hrange 0x90 0xBF (hF0 (by rw [hb]; rfl)) hcont.2
      · split
        · next hb => exact hrange 0x80 0x8F hcont.1 (hF4 (by rw [hb]; rfl))
        · exact hrange 0x80 0xBF hcont.1 hcont.2

theorem first_one (hb : b.toNat < 0x80) : first b rest = (.char (Char.ofNat b.toNat), 0) :=
  if_pos (UInt8.lt_iff_toNat_lt.mpr hb)

/-- The tests on the first two bytes of a form of three or four bytes. -/
theorem long_of_le (hb : 0xE0 ≤ b.toNat ∧ b.toNat ≤ 0xF4) (hb₁ : mayFollow b b₁ = true) :
    ¬b < 0x80 ∧ ¬(0xC2 ≤ b && b ≤ 0xDF && isCont b₁) = true ∧
      (0xE0 ≤ b && b ≤ 0xF4 && mayFollow b b₁) = true := by
  refine ⟨fun h => ?_, fun h => ?_, ?_⟩
  · have hlt : b.toNat < 0x80 := UInt8.lt_iff_toNat_lt.mp h
    omega
  · simp only [Bool.and_eq_true, decide_eq_true_eq] at h
    have hle : b.toNat ≤ 0xDF := UInt8.le_iff_toNat_le.mp h.1.2
    omega
  · simpa [UInt8.le_iff_toNat_le, hb₁] using hb

theorem first_two (hb : 0xC2 ≤ b.toNat ∧ b.toNat ≤ 0xDF) (hb₁ : isCont b₁ = true) :
    first b (b₁ :: rest) = (.char (Char.ofNat (b.toNat % 0x20 * 0x40 + contBits b₁)), 1) := by
  have hlarge : ¬b < 0x80 := fun h => by
    have hlt : b.toNat < 0x80 := UInt8.lt_iff_toNat_lt.mp h
    omega
  have hrange : (0xC2 ≤ b && b ≤ 0xDF && isCont b₁) = true := by
    simpa [UInt8.le_iff_toNat_le, hb₁] using hb
  unfold first
  rw [if_neg hlarge]
  exact if_pos hrange

theorem first_three (hb : 0xE0 ≤ b.toNat ∧ b.toNat ≤ 0xEF) (hb₁ : mayFollow b b₁ = true)
    (hb₂ : isCont b₂ = true) : first b (b₁ :: b₂ :: rest) =
      (.char (Char.ofNat ((b.toNat % 0x10 * 0x40 + contBits b₁) * 0x40 + contBits b₂)), 2) := by
  obtain ⟨hsmall, htwo, hlong⟩ := long_of_le ⟨hb.1, by omega⟩ hb₁
  have hle : b ≤ 0xEF := UInt8.le_iff_toNat_le.mpr hb.2
  unfold first
  rw [if_neg hsmall]
  dsimp only
  rw [if_neg htwo, if_pos hlong]
  simp [hb₂, hle]

theorem first_four (hb : 0xF0 ≤ b.toNat ∧ b.toNat ≤ 0xF4) (hb₁ : mayFollow b b₁ = true)
    (hb₂ : isCont b₂ = true) (hb₃ : isCont b₃ = true) : first b (b₁ :: b₂ :: b₃ :: rest) =
      (.char (Char.ofNat (((b.toNat % 0x08 * 0x40 + contBits b₁) * 0x40 + contBits b₂) * 0x40 +
        contBits b₃)), 3) := by
  obtain ⟨hsmall, htwo, hlong⟩ := long_of_le ⟨by omega, hb.2⟩ hb₁
  have hle : ¬b ≤ 0xEF := fun h => by
    have hle : b.toNat ≤ 0xEF := UInt8.le_iff_toNat_le.mp h
    omega
  unfold first
  rw [if_neg hsmall]
  dsimp only
  rw [if_neg htwo, if_pos hlong]
  simp [hb₂, hb₃, hle]

end Forms

/-! ### Strings -/

theorem toNat_ofNat {n : Nat} (hn : n < 0x100) : (UInt8.ofNat n).toNat = n := UInt8.toNat_ofNat_of_lt' hn

/-- Six bits of a number, in a byte that continues a form. -/
theorem isCont_ofNat (n : Nat) : isCont (UInt8.ofNat (n % 0x40 + 0x80)) = true ∧
    contBits (UInt8.ofNat (n % 0x40 + 0x80)) = n % 0x40 := by
  rw [isCont_iff, contBits, toNat_ofNat (by omega)]
  omega

/-- The bytes of a character are read as that character. -/
theorem first_encode (c : Char) : ∃ b bs, String.utf8EncodeChar c = b :: bs ∧
    ∀ rest, first b (bs ++ rest) = (.char c, bs.length) := by
  have hvalid : c.toNat < 0xD800 ∨ 0xDFFF < c.toNat ∧ c.toNat < 0x110000 := c.valid
  have hchar : ∀ n, n = c.toNat → Char.ofNat n = c := by
    rintro n rfl
    exact Char.ofNat_toNat c
  change ∃ b bs, (if c.toNat ≤ 0x7F then [UInt8.ofNat c.toNat]
    else if c.toNat ≤ 0x7FF then
      [UInt8.ofNat (c.toNat / 0x40 % 0x20 + 0xC0), UInt8.ofNat (c.toNat % 0x40 + 0x80)]
    else if c.toNat ≤ 0xFFFF then
      [UInt8.ofNat (c.toNat / 0x1000 % 0x10 + 0xE0), UInt8.ofNat (c.toNat / 0x40 % 0x40 + 0x80),
        UInt8.ofNat (c.toNat % 0x40 + 0x80)]
    else
      [UInt8.ofNat (c.toNat / 0x40000 % 0x08 + 0xF0), UInt8.ofNat (c.toNat / 0x1000 % 0x40 + 0x80),
        UInt8.ofNat (c.toNat / 0x40 % 0x40 + 0x80), UInt8.ofNat (c.toNat % 0x40 + 0x80)]) =
      b :: bs ∧ ∀ rest, first b (bs ++ rest) = (.char c, bs.length)
  by_cases hone : c.toNat ≤ 0x7F
  · refine ⟨_, _, if_pos hone, fun rest => ?_⟩
    have hb := toNat_ofNat (n := c.toNat) (by omega)
    refine (first_one (by omega)).trans ?_
    rw [hchar _ hb, List.length_nil]
  rw [if_neg hone]
  by_cases htwo : c.toNat ≤ 0x7FF
  · refine ⟨_, _, if_pos htwo, fun rest => ?_⟩
    have hb := toNat_ofNat (n := c.toNat / 0x40 % 0x20 + 0xC0) (by omega)
    refine (first_two (by omega) (isCont_ofNat _).1).trans ?_
    rw [hchar _ (by rw [hb, (isCont_ofNat _).2]; omega)]
    rfl
  rw [if_neg htwo]
  by_cases hthree : c.toNat ≤ 0xFFFF
  · refine ⟨_, _, if_pos hthree, fun rest => ?_⟩
    have hb := toNat_ofNat (n := c.toNat / 0x1000 % 0x10 + 0xE0) (by omega)
    have hb₁ := toNat_ofNat (n := c.toNat / 0x40 % 0x40 + 0x80) (by omega)
    refine (first_three (by omega) (mayFollow_of ?_ ?_ ?_ ?_ ?_) (isCont_ofNat _).1).trans ?_
    case refine_6 =>
      rw [hchar _ (by rw [hb, (isCont_ofNat _).2, (isCont_ofNat _).2]; omega)]
      rfl
    all_goals omega
  refine ⟨_, _, if_neg hthree, fun rest => ?_⟩
  have hb := toNat_ofNat (n := c.toNat / 0x40000 % 0x08 + 0xF0) (by omega)
  have hb₁ := toNat_ofNat (n := c.toNat / 0x1000 % 0x40 + 0x80) (by omega)
  refine (first_four (by omega) (mayFollow_of ?_ ?_ ?_ ?_ ?_) (isCont_ofNat _).1 (isCont_ofNat _).1).trans ?_
  case refine_6 =>
    rw [hchar _ (by rw [hb, (isCont_ofNat _).2, (isCont_ofNat _).2, (isCont_ofNat _).2]; omega)]
    rfl
  all_goals omega

theorem ofByteListFrom_append (bs rest : List UInt8) :
    ofByteListFrom bs.length (bs ++ rest) = ofByteListFrom 0 rest := by
  induction bs with
  | nil => rfl
  | cons b bs ih => exact ih

theorem ofByteListFrom_encode (l : List Char) :
    ofByteListFrom 0 (l.flatMap String.utf8EncodeChar) = l.map .char := by
  induction l with
  | nil => rfl
  | cons c l ih =>
    obtain ⟨b, bs, hencode, hfirst⟩ := first_encode c
    rw [List.flatMap_cons, hencode, List.cons_append, ofByteListFrom, hfirst, List.map_cons, ← ih]
    exact congrArg (Symbol.char c :: ·) (ofByteListFrom_append bs _)

/-- **Reading the bytes of a string gives its characters.** -/
theorem ofBytes_toUTF8 (s : String) : ofBytes s.toUTF8 = ofString s := by
  have hbytes : s.toUTF8 = (s.toList.flatMap String.utf8EncodeChar).toByteArray :=
    String.utf8Encode_toList.symm
  rw [ofBytes, ofString, hbytes, ← ofByteListFrom_encode, List.data_toByteArray]

end Midend.Text.Symbol
