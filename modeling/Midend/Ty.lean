import Midend.Text.Numeral
import Midend.Text.Quoted

/-!
# Types

A value has no type (`void`), is an integer of a given width, or an address (`ptr`).  The
textual forms are `void`, `ptr`, and `i1`, `i8`, `i16`, `i32`, `i64`.  A type may also be built
from a raw kind and width; then its kind can be unknown and its width arbitrary.

## Main definitions

* `Ty`: types.
* `Ty.parse`: the type a text names.
* `Ty.text`: the name of a type in running text.
* `Ty.wrap`: a 64-bit value cut down to the width of a type.
-/

namespace Midend

/-- The kinds of types. -/
inductive TyKind where
  /-- No value. -/
  | void
  /-- An integer. -/
  | int
  /-- An address. -/
  | ptr
  /-- A kind that has no name. -/
  | unknown (code : UInt8)
  deriving DecidableEq, Repr, Inhabited

/-- The number of a kind. -/
def TyKind.code : TyKind → UInt8
  | .void => 0
  | .int => 1
  | .ptr => 2
  | .unknown n => n

/-- The kind with a given number. -/
def TyKind.ofCode (n : UInt8) : TyKind :=
  if n = 0 then .void else if n = 1 then .int else if n = 2 then .ptr else .unknown n

/-- A type: its kind, and its width in bits where that matters. -/
structure Ty where
  /-- The kind. -/
  kind : TyKind := .void
  /-- The width in bits. -/
  bits : UInt8 := 0
  deriving DecidableEq, Repr, Inhabited

/-- Why a text names no type. -/
inductive TyError where
  /-- The text is not of the form of a type. -/
  | unknownName (text : String)
  /-- The width does not fit in a byte. -/
  | widthOutOfRange (text : String)
  /-- There are no integers of this width. -/
  | unsupportedWidth (text : String)
  deriving DecidableEq, Repr, Inhabited

/-- The wording of a type error. -/
def TyError.message : TyError → String
  | .unknownName s => s!"unknown type {Text.quote s}"
  | .widthOutOfRange s => s!"integer width out of range: {s}"
  | .unsupportedWidth s => s!"unsupported integer width: {s}"

namespace Ty

/-- The type of instructions without a result. -/
def void : Ty := {}

/-- The type of addresses. -/
def ptr : Ty := ⟨.ptr, 64⟩

/-- The integer type of a given width. -/
def int (bits : UInt8) : Ty := ⟨.int, bits⟩

/-- Truth values. -/
def i1 : Ty := int 1

/-- Integers of full width. -/
def i64 : Ty := int 64

/-- Is it an integer type? -/
def isInt (t : Ty) : Bool := t.kind == .int

/-- Is it the type of no value? -/
def isVoid (t : Ty) : Bool := t.kind == .void

/-- The widths integers may have. -/
def widths : List Int := [1, 8, 16, 32, 64]

/-- The type a text names. -/
def parse (s : String) : Except TyError Ty :=
  if s = "void" then .ok void
  else if s = "ptr" then .ok ptr
  else
    match s.toList with
    | 'i' :: width =>
      match Text.readDecimal (String.ofList width) with
      | .error _ => .error (.unknownName s)
      | .ok n =>
        if n.toInt < 0 || 255 < n.toInt then .error (.widthOutOfRange s)
        else if widths.contains n.toInt then .ok (int (UInt8.ofNat n.toInt.toNat))
        else .error (.unsupportedWidth s)
    | _ => .error (.unknownName s)

/-- The name of a type, if its kind has one. -/
def name? (t : Ty) : Option String :=
  match t.kind with
  | .void => some "void"
  | .ptr => some "ptr"
  | .int => some s!"i{t.bits.toNat}"
  | .unknown _ => none

/-- The complaint about a kind without a name. -/
def unknownKind (code : UInt8) : String := s!"invalid type kind: {code.toNat}"

/-- The name of a type in running text, where a kind without a name leaves a complaint. -/
def text (t : Ty) : String :=
  t.name?.getD s!"%!s(PANIC=String method: {unknownKind t.kind.code})"

/-- Cuts a value down to the width of the type.  Truth values are kept as 0 or 1; a wider
integer keeps its low bits, the highest of which gives the sign: they are moved to the top and
back.  Nothing else is cut. -/
def wrap (t : Ty) (v : Int64) : Int64 :=
  if t.kind ≠ .int then v
  else if t.bits = 1 then v &&& 1
  else if 64 ≤ t.bits then v
  else
    let shift := 64 - t.bits.toNat
    Int64.ofBitVec ((v.toBitVec <<< shift).sshiftRight shift)

/-- Low bits that are moved to the top and back are read with a sign. -/
theorem sshiftRight_shiftLeft {w : Nat} (hw : w ≤ 64) (x : BitVec 64) :
    (x <<< (64 - w)).sshiftRight (64 - w) = (x.setWidth w).signExtend 64 := by
  apply BitVec.eq_of_getLsbD_eq
  intro i hi
  rw [BitVec.getLsbD_sshiftRight, BitVec.getLsbD_signExtend]
  by_cases hlow : i < w
  · have hback : 64 - w + i < 64 := by omega
    have hmoved : ¬64 - w + i < 64 - w := by omega
    simp [hi, Nat.not_le.mpr hi, hlow, hback, hmoved]
  · have hback : ¬64 - w + i < 64 := by omega
    -- Above the low bits there is the sign, which is nothing at width 0.
    have hsign : (x <<< (64 - w)).msb = (x.setWidth w).msb := by
      rw [BitVec.msb_shiftLeft, BitVec.msb_setWidth, BitVec.getMsbD_eq_getLsbD]
      have hnonempty : 64 - w < 64 ↔ 0 < w := by omega
      have hplace : 64 - 1 - (64 - w) = w - 1 := by omega
      simp only [hnonempty, hplace]
    rw [if_neg hback, if_neg hlow, hsign]
    simp [hi, Nat.not_le.mpr hi]

/-- What is cut down to a width stays as it is. -/
theorem wrap_wrap (t : Ty) (v : Int64) : t.wrap (t.wrap v) = t.wrap v := by
  unfold wrap
  split
  · rfl
  split
  · rw [Int64.and_assoc, Int64.and_self]
  split
  · rfl
  next hbits =>
  have hle : t.bits.toNat ≤ 64 := by
    rw [UInt8.le_iff_toNat_le] at hbits
    exact Nat.le_of_not_le hbits
  have hlow : ∀ x : BitVec t.bits.toNat, (x.signExtend 64).setWidth t.bits.toNat = x := by
    intro x
    apply BitVec.eq_of_getLsbD_eq
    intro i hi
    simp [BitVec.getLsbD_signExtend, hi]
    omega
  simp only [sshiftRight_shiftLeft hle, Int64.toBitVec_ofBitVec, hlow]

end Ty

end Midend
