import Midend.Text.Numeral
import Midend.Toml.Value

/-!
# Numbers in TOML

Integers are decimal with an optional sign, or hexadecimal, octal or binary with a radix mark and
no sign.  Floating-point numbers have a fraction, an exponent or both.  Underscores may stand
between digits, and there are no superfluous leading zeros.

## Main definitions

* `integer`, `float`: the values of number texts.
* `overflows`: does a decimal number exceed every double-precision number?
-/

namespace Midend.Toml

/-- Does every underscore stand behind a digit, and does the text end in a digit?  Letters count as
digits as far as the hexadecimal ones go. -/
def underscoresOk : Bool → List Char → Bool
  | afterDigit, [] => afterDigit
  | afterDigit, c :: rest =>
    (c != '_' || afterDigit) && underscoresOk (Text.isHexDigit c) rest

/-- Does a number begin with a zero that is not needed? -/
def leadingZero : List Char → Bool
  | '0' :: m :: _ => !(m = 'b' || m = 'o' || m = 'x')
  | s :: '0' :: _ :: _ => s = '-' || s = '+'
  | _ => false

/-- The value of an integer text. -/
def integer (cs : List Char) : Except Error Value :=
  let text := String.ofList cs
  if !underscoresOk false cs || leadingZero cs then .error (.badNumber text)
  else
    match Text.readSigned text with
    | .ok n => .ok (.integer n.toInt)
    | .error .outOfRange => .error (.outOfRange text)
    | .error .malformed => .error (.badNumber text)

/-- The digits of a decimal number `0.d₁d₂…` or `d₁d₂….e₁e₂…`, with the exponent of ten that they
are to be multiplied by. -/
structure Decimal where
  /-- The digits as one number. -/
  digits : Nat
  /-- The exponent of ten. -/
  exponent : Int
  deriving DecidableEq, Repr

/-- Does a number round to a value beyond the double-precision numbers?  The limit lies half a step
above the largest of them. -/
def Decimal.overflows (d : Decimal) : Bool :=
  let limit := Nat.pow 2 1024 - Nat.pow 2 970
  if d.exponent < 0 then limit * Nat.pow 10 d.exponent.natAbs ≤ d.digits
  else limit ≤ d.digits * Nat.pow 10 d.exponent.toNat

/-- The value of decimal digits. -/
def digitsValue (cs : List Char) : Nat :=
  cs.foldl (fun n c => n * 10 + (c.toNat - '0'.toNat)) 0

/-- The value of an exponent.  From ten thousand on further digits do not count: such a number is
out of range anyway. -/
def exponentValue (cs : List Char) : Nat :=
  cs.foldl (fun n c => if n < 10000 then n * 10 + (c.toNat - '0'.toNat) else n) 0

/-- The exponent of a number, from its mark on. -/
def readExponent : List Char → Option Int
  | [] => some 0
  | e :: cs =>
    let (negative, digits) := Text.splitSign cs
    if (e = 'e' || e = 'E') && digits.all Text.isAsciiDigit && !digits.isEmpty then
      some (if negative then -(exponentValue digits : Int) else exponentValue digits)
    else none

/-- Reads a decimal number: a sign, digits, a fraction and an exponent. -/
def readFloat (cs : List Char) : Option Decimal := do
  let (_, cs) := Text.splitSign cs
  let (whole, rest) := cs.span Text.isAsciiDigit
  let (fraction, rest) :=
    match rest with
    | '.' :: rest => rest.span Text.isAsciiDigit
    | rest => ([], rest)
  let e ← readExponent rest
  if whole.isEmpty then none
  else some ⟨digitsValue (whole ++ fraction), e - fraction.length⟩

/-- Is every point followed by a digit? -/
def pointsOk : List Char → Bool
  | [] => true
  | ['.'] => false
  | '.' :: c :: rest => Text.isAsciiDigit c && pointsOk (c :: rest)
  | _ :: rest => pointsOk rest

/-- The parts of a number between points and exponent marks, without the empty ones. -/
def floatParts (cs : List Char) : List (List Char) :=
  (cs.splitOnP fun c => c = '.' || c = 'e' || c = 'E').filter fun p => !p.isEmpty

/-- The value of a text that looks like a floating-point number. -/
def float (cs : List Char) : Except Error Value :=
  let text := String.ofList cs
  let parts := floatParts cs
  if !parts.all (underscoresOk false) || (parts.head?.map leadingZero).getD false ||
      !pointsOk cs then
    .error (.badNumber text)
  else
    match readFloat (cs.filter (· != '_')) with
    | none => .error (.badNumber text)
    | some d => if d.overflows then .error (.outOfRange text) else .ok (.float text)

end Midend.Toml
