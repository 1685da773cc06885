import Mathlib.Data.Int.ModEq
import Midend.Program.Edit

/-!
# Folding is arithmetic of residues

A constant of an integer type stands for a residue modulo a power of two.  Of all numbers of its residue it
has the one that fits the width of the type, and there is only one.  Sums, differences and products of
residues are those of the numbers, so folding may cut down its operands, and may overflow in 64 bits on the
way: what it yields is the residue of the exact result.  The same holds of a whole expression, which is
therefore folded to the same constant however it is grouped.

## Main definitions

* `Fits`: the numbers of a width.
* `Opcode.exact?`: the operations on integers without a bound.
* `Arith`: expressions over literals, with the constant they fold to and their exact value.

## Main results

* `Fits.eq_of_modEq`: only one number of a residue fits.
* `Const.represents_ofValue`, `Const.represents_fold`, `Arith.represents_folded`: literals, folds and folded
  expressions stand for exact values.
* `fold_exact`: what folding yields.
-/

namespace Midend

/-! ### Residues -/

/-- The number fits a width: it is 0 or 1 for a single bit, and otherwise in the range with a sign. -/
def Fits (w : Nat) (z : Int) : Prop :=
  if w = 1 then 0 ≤ z ∧ z < 2 else -2 ^ (w - 1) ≤ z ∧ z < 2 ^ (w - 1)

/-- The numbers that fit are as many as there are residues, one behind the other. -/
theorem exists_fits_iff {w : Nat} (hw : 1 ≤ w) :
    ∃ low : Int, ∀ z, Fits w z ↔ low ≤ z ∧ z < low + 2 ^ w := by
  unfold Fits
  split
  · next h =>
    subst h
    exact ⟨0, fun z => Iff.rfl⟩
  · have hdouble : (2 : Int) ^ w = 2 * 2 ^ (w - 1) := by
      rw [← pow_succ', Nat.sub_add_cancel hw]
    refine ⟨-2 ^ (w - 1), fun z => ?_⟩
    rw [hdouble]
    constructor
    · rintro ⟨hlow, hhigh⟩
      exact ⟨hlow, by omega⟩
    · rintro ⟨hlow, hhigh⟩
      exact ⟨hlow, by omega⟩

/-- **Only one number of a residue fits.** -/
theorem Fits.eq_of_modEq {w : Nat} (hw : 1 ≤ w) {y z : Int} (hy : Fits w y) (hz : Fits w z)
    (h : y ≡ z [ZMOD 2 ^ w]) : y = z := by
  obtain ⟨low, hfits⟩ := exists_fits_iff hw
  rw [hfits] at hy hz
  have hshift : y - low ≡ z - low [ZMOD 2 ^ w] := h.sub_right low
  unfold Int.ModEq at hshift
  rw [Int.emod_eq_of_lt (by omega) (by omega), Int.emod_eq_of_lt (by omega) (by omega)] at hshift
  omega

/-- The residue that a number of 64 bits has as a word without a sign. -/
theorem toNat_modEq {w : Nat} (hw : w ≤ 64) (a : Int64) :
    (a.toBitVec.toNat : Int) ≡ a.toInt [ZMOD 2 ^ w] := by
  have hword : (a.toBitVec.toNat : Int) ≡ a.toInt [ZMOD 2 ^ 64] := by
    change _ ≡ a.toBitVec.toInt [ZMOD 2 ^ 64]
    rw [BitVec.toInt_eq_toNat_bmod]
    exact (Int.bmod_emod (m := 2 ^ 64)).symm
  exact hword.of_dvd (pow_dvd_pow 2 hw)

/-! ### Cutting down -/

/-- Cutting down to the width of an integer type. -/
theorem Ty.wrap_int (w : UInt8) (a : Int64) : (Ty.int w).wrap a = if w = 1 then a &&& 1
    else if 64 ≤ w then a
    else Int64.ofBitVec ((a.toBitVec <<< (64 - w.toNat)).sshiftRight (64 - w.toNat)) := rfl

section Wrap

variable {w : UInt8} (hpos : 1 ≤ w) (hle : w ≤ 64) (a : Int64)

/-- A single bit is the parity. -/
theorem toInt_and_one : (a &&& 1).toInt = a.toInt % 2 := by
  have hnat : (a &&& 1).toBitVec.toNat = a.toBitVec.toNat % 2 := by
    rw [Int64.toBitVec_and, BitVec.toNat_and]
    exact Nat.and_one_is_mod _
  have hint : (a &&& 1).toInt = ((a &&& 1).toBitVec.toNat : Int) := by
    change (a &&& 1).toBitVec.toInt = _
    refine BitVec.toInt_eq_toNat_of_lt ?_
    omega
  have hresidue := toNat_modEq (w := 1) (by omega) a
  unfold Int.ModEq at hresidue
  rw [hint, hnat]
  omega

include hpos hle

/-- Cutting down keeps the residue, and the result fits. -/
theorem Ty.wrap_spec : Fits w.toNat ((Ty.int w).wrap a).toInt ∧
    ((Ty.int w).wrap a).toInt ≡ a.toInt [ZMOD 2 ^ w.toNat] := by
  have hpos' : 1 ≤ w.toNat := hpos
  have hle' : w.toNat ≤ 64 := hle
  rw [wrap_int]
  by_cases hone : w = 1
  · rw [if_pos hone, toInt_and_one, hone]
    refine ⟨⟨Int.emod_nonneg _ (by omega), Int.emod_lt_of_pos _ (by omega)⟩, ?_⟩
    exact Int.mod_modEq _ _
  rw [if_neg hone]
  by_cases hfull : 64 ≤ w
  · rw [if_pos hfull]
    obtain rfl : w = 64 := UInt8.le_antisymm hle hfull
    exact ⟨⟨a.le_toInt, a.toInt_lt⟩, Int.ModEq.refl _⟩
  · -- The low bits, read with a sign.
    have hsigned : (Int64.ofBitVec ((a.toBitVec.setWidth w.toNat).signExtend 64)).toInt =
        (a.toBitVec.toNat : Int).bmod (2 ^ w.toNat) := by
      rw [Int64.toInt_ofBitVec, BitVec.toInt_signExtend_of_le hle', BitVec.toInt_setWidth]
    rw [if_neg hfull, sshiftRight_shiftLeft hle', hsigned]
    refine ⟨?_, ?_⟩
    · have hne : w.toNat ≠ 1 := fun h => hone (UInt8.toNat_inj.mp h)
      have hdouble : (2 : Int) ^ w.toNat = 2 * 2 ^ (w.toNat - 1) := by
        rw [← pow_succ', Nat.sub_add_cancel hpos']
      have hlow := Int.le_bmod (x := a.toBitVec.toNat) (m := 2 ^ w.toNat) (Nat.two_pow_pos _)
      have hhigh := Int.bmod_lt (x := a.toBitVec.toNat) (m := 2 ^ w.toNat) (Nat.two_pow_pos _)
      push_cast at hlow hhigh
      rw [hdouble] at hlow hhigh
      unfold Fits
      rw [if_neg hne]
      constructor <;> omega
    · refine Int.ModEq.trans ?_ (toNat_modEq hle' a)
      exact Int.bmod_emod (m := 2 ^ w.toNat)

end Wrap

/-! ### Constants that stand for numbers -/

/-- The constant has the integer type of the width, and of the numbers with the residue of `z` it has the one
that fits. -/
structure Const.Represents (w : UInt8) (c : Const) (z : Int) : Prop where
  ty : c.ty = .int w
  fits : Fits w.toNat c.value.toInt
  residue : c.value.toInt ≡ z [ZMOD 2 ^ w.toNat]

/-- The operation on integers that an operation stands for. -/
def Opcode.exact? : Opcode → Option (Int → Int → Int)
  | .add => some (· + ·)
  | .sub => some (· - ·)
  | .mul => some (· * ·)
  | _ => none

namespace Const

variable {w : UInt8} {c d : Const} {x y z : Int}

theorem Represents.of_modEq (h : c.Represents w y) (hyz : y ≡ z [ZMOD 2 ^ w.toNat]) :
    c.Represents w z :=
  ⟨h.ty, h.fits, h.residue.trans hyz⟩

section Width

variable (hpos : 1 ≤ w) (hle : w ≤ 64)

include hpos

/-- Constants are the same just if they stand for the same residue. -/
theorem Represents.eq_iff (hc : c.Represents w y) (hd : d.Represents w z) :
    c = d ↔ y ≡ z [ZMOD 2 ^ w.toNat] := by
  constructor
  · rintro rfl
    exact hc.residue.symm.trans hd.residue
  · intro h
    have hresidue := (hc.residue.trans h).trans hd.residue.symm
    have hvalue := Int64.toInt_inj.mp (hc.fits.eq_of_modEq hpos hd.fits hresidue)
    obtain ⟨cty, cvalue⟩ := c
    obtain ⟨dty, dvalue⟩ := d
    obtain rfl : cty = .int w := hc.ty
    obtain rfl : dty = .int w := hd.ty
    exact congrArg _ hvalue

include hle

/-- A literal stands for its value. -/
theorem represents_ofValue (a : Int64) : (ofValue (.int w) a).Represents w a.toInt := by
  obtain ⟨hfits, hresidue⟩ := Ty.wrap_spec hpos hle a
  exact ⟨rfl, hfits, hresidue⟩

/-- **A fold stands for the exact result,** if its operands have the residues of exact operands.  They need
not fit. -/
theorem represents_fold {op : Opcode} {g : Int → Int → Int} (hop : op.exact? = some g)
    (hty : c.ty = .int w) (hc : c.value.toInt ≡ x [ZMOD 2 ^ w.toNat])
    (hd : d.value.toInt ≡ y [ZMOD 2 ^ w.toNat]) :
    ∃ e, foldConst op c d = some e ∧ e.Represents w (g x y) := by
  have hle' : w.toNat ≤ 64 := hle
  -- A result that overflows keeps its residue.
  have hword : ∀ n : Int, n.bmod (2 ^ 64) ≡ n [ZMOD 2 ^ w.toNat] := by
    intro n
    have h64 : n.bmod (2 ^ 64) ≡ n [ZMOD 2 ^ 64] := Int.bmod_emod (m := 2 ^ 64)
    exact h64.of_dvd (pow_dvd_pow 2 hle')
  have hliteral := represents_ofValue hpos hle
  unfold foldConst
  rw [hty]
  cases op with
  | add =>
    cases hop
    refine ⟨_, rfl, (hliteral _).of_modEq ?_⟩
    rw [Int64.toInt_add]
    exact (hword _).trans (hc.add hd)
  | sub =>
    cases hop
    refine ⟨_, rfl, (hliteral _).of_modEq ?_⟩
    rw [Int64.toInt_sub]
    exact (hword _).trans (hc.sub hd)
  | mul =>
    cases hop
    refine ⟨_, rfl, (hliteral _).of_modEq ?_⟩
    rw [Int64.toInt_mul]
    exact (hword _).trans (hc.mul hd)
  | _ => cases hop

end Width

end Const

/-! ### Expressions -/

/-- Expressions over literals. -/
inductive Arith where
  /-- A literal. -/
  | literal (a : Int64)
  /-- An operation on two expressions. -/
  | apply (op : Opcode) (x y : Arith)

namespace Arith

/-- What an expression is folded to, one operation after the other, if all of them can be folded. -/
def folded (ty : Ty) : Arith → Option Const
  | literal a => some (.ofValue ty a)
  | apply op x y => do foldConst op (← x.folded ty) (← y.folded ty)

/-- The value of an expression over the integers. -/
def exact : Arith → Option Int
  | literal a => some a.toInt
  | apply op x y => do return (← op.exact?) (← x.exact) (← y.exact)

/-- **Folding an expression is exact,** whatever overflows on the way. -/
theorem represents_folded {w : UInt8} (hpos : 1 ≤ w) (hle : w ≤ 64) (e : Arith) {z : Int}
    (h : e.exact = some z) : ∃ c, e.folded (.int w) = some c ∧ c.Represents w z := by
  induction e generalizing z with
  | literal a =>
    cases h
    exact ⟨_, rfl, Const.represents_ofValue hpos hle a⟩
  | apply op x y ihx ihy =>
    simp only [exact, Option.bind_eq_bind, Option.bind_eq_some_iff] at h
    obtain ⟨g, hg, m, hm, n, hn, hz⟩ := h
    cases hz
    obtain ⟨c, hc, hcm⟩ := ihx hm
    obtain ⟨d, hd, hdn⟩ := ihy hn
    obtain ⟨k, hk, hkz⟩ := Const.represents_fold hpos hle hg hcm.ty hcm.residue hdn.residue
    refine ⟨k, ?_, hkz⟩
    simp only [folded, hc, hd, Option.bind_eq_bind, Option.bind_some, hk]

end Arith

/-- **Folding is exact arithmetic modulo a power of two,** for every width from 1 to 64.  A literal has the
one number of its residue that fits the width, so cutting down twice is cutting down once.  A sum, a
difference or a product of two literals is folded to the constant of the same type for the exact result,
whether the operands are cut down before or not.  So is every expression, and two expressions are folded to
the same constant just if their exact values have the same residue; how they are grouped makes no
difference. -/
theorem fold_exact {w : UInt8} (hpos : 1 ≤ w) (hle : w ≤ 64) :
    (∀ a : Int64, (Const.ofValue (.int w) a).ty = .int w ∧
      ∀ z, Fits w.toNat z ∧ z ≡ a.toInt [ZMOD 2 ^ w.toNat] ↔
        z = (Const.ofValue (.int w) a).value.toInt) ∧
    (∀ a, (Ty.int w).wrap ((Ty.int w).wrap a) = (Ty.int w).wrap a) ∧
    (∀ op g, op.exact? = some g → ∀ a b : Int64, ∃ c,
      foldConst op (.ofValue (.int w) a) (.ofValue (.int w) b) = some c ∧
      c.Represents w (g a.toInt b.toInt) ∧ foldConst op ⟨.int w, a⟩ ⟨.int w, b⟩ = some c) ∧
    (∀ e z, Arith.exact e = some z → ∃ c, e.folded (.int w) = some c ∧ c.Represents w z) ∧
    ∀ e e' z z', Arith.exact e = some z → Arith.exact e' = some z' →
      (e.folded (.int w) = e'.folded (.int w) ↔ z ≡ z' [ZMOD 2 ^ w.toNat]) := by
  have hliteral := Const.represents_ofValue hpos hle
  refine ⟨fun a => ⟨rfl, fun z => ⟨?_, ?_⟩⟩, Ty.wrap_wrap _, fun op g hop a b => ?_,
    fun e _ => e.represents_folded hpos hle, fun e e' z z' he he' => ?_⟩
  · rintro ⟨hfits, hz⟩
    exact hfits.eq_of_modEq hpos (hliteral a).fits (hz.trans (hliteral a).residue.symm)
  · rintro rfl
    exact ⟨(hliteral a).fits, (hliteral a).residue⟩
  · obtain ⟨c, hc, hrep⟩ :=
      Const.represents_fold hpos hle hop (hliteral a).ty (hliteral a).residue (hliteral b).residue
    obtain ⟨d, hd, hrep'⟩ := Const.represents_fold (c := ⟨.int w, a⟩) (d := ⟨.int w, b⟩) hpos hle hop rfl
      (Int.ModEq.refl a.toInt) (Int.ModEq.refl b.toInt)
    obtain rfl : d = c := (hrep'.eq_iff hpos hrep).mpr (Int.ModEq.refl _)
    exact ⟨d, hc, hrep, hd⟩
  · obtain ⟨c, hc, hrep⟩ := e.represents_folded hpos hle he
    obtain ⟨d, hd, hrep'⟩ := e'.represents_folded hpos hle he'
    rw [hc, hd, Option.some.injEq]
    exact hrep.eq_iff hpos hrep'

/-- A product that overflows 64 bits, at a width of 13. -/
theorem fold_exact_overflowing : (1 : UInt8) ≤ 13 ∧ (13 : UInt8) ≤ 64 ∧
    ∃ c, foldConst .mul (.ofValue (.int 13) 9223372036854775807)
        (.ofValue (.int 13) 4611686018427391999) = some c ∧
      c.Represents 13 (9223372036854775807 * 4611686018427391999) ∧ c.value = -4095 := by
  have hpos : (1 : UInt8) ≤ 13 := by decide
  have hle : (13 : UInt8) ≤ 64 := by decide
  obtain ⟨c, hc, hrep, -⟩ :=
    (@fold_exact 13 hpos hle).2.2.1 .mul (· * ·) rfl 9223372036854775807 4611686018427391999
  have hvalue : foldConst .mul (.ofValue (.int 13) 9223372036854775807)
      (.ofValue (.int 13) 4611686018427391999) = some ⟨.int 13, -4095⟩ := by decide
  obtain rfl : c = ⟨.int 13, -4095⟩ := Option.some.inj (hc.symm.trans hvalue)
  exact ⟨hpos, hle, _, hc, hrep, rfl⟩

end Midend
