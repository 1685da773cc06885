import Midend.Text.Runs

/-!
# Integer numerals

Integers are written in decimal, or with a radix mark: `0x`, `0o`, `0b`, and a bare leading `0`
for octal.  An underscore may separate digits, also right behind the radix mark.  Reading
distinguishes a text that is no numeral from one whose value does not fit.

## Main definitions

* `readUnsigned`: an unsigned 64-bit numeral with an optional radix mark.
* `readSigned`: the same with an optional sign, as a signed 64-bit value.
* `readDecimal`: a signed decimal numeral without radix mark or underscores.
* `readBool`: a truth value.
-/

namespace Midend.Text

/-- Why a text is not the numeral of a value. -/
inductive NumeralError where
  /-- The text is no numeral. -/
  | malformed
  /-- The value does not fit in 64 bits. -/
  | outOfRange
  deriving DecidableEq, Repr, Inhabited

/-- The wording of a numeral error. -/
def NumeralError.message : NumeralError → String
  | .malformed => "invalid syntax"
  | .outOfRange => "value out of range"

/-- The value of a digit of any radix up to 36. -/
def digitValue? (c : Char) : Option Nat :=
  if '0' ≤ c && c ≤ '9' then some (c.toNat - '0'.toNat)
  else if 'a' ≤ c && c ≤ 'z' then some (c.toNat - 'a'.toNat + 10)
  else if 'A' ≤ c && c ≤ 'Z' then some (c.toNat - 'A'.toNat + 10)
  else none

/-- The value of a digit sequence that continues a numeral of value `acc`.  A value that
reaches `limit` is refused at once, whatever follows. -/
def readDigits (radix limit : Nat) (separators : Bool) : Nat → List Char →
    Except NumeralError Nat
  | acc, [] => .ok acc
  | acc, c :: cs =>
    if separators && c = '_' then readDigits radix limit separators acc cs
    else
      match digitValue? c with
      | none => .error .malformed
      | some d =>
        if radix ≤ d then .error .malformed
        else if limit ≤ acc * radix + d then .error .outOfRange
        else readDigits radix limit separators (acc * radix + d) cs

/-- Splits a numeral into its radix and its digits. -/
def splitRadix : List Char → Nat × List Char
  | '0' :: m :: c :: cs =>
    if m = 'b' || m = 'B' then (2, c :: cs)
    else if m = 'o' || m = 'O' then (8, c :: cs)
    else if m = 'x' || m = 'X' then (16, c :: cs)
    else (8, m :: c :: cs)
  | '0' :: cs => (8, cs)
  | cs => (10, cs)

/-- What the character before the current one was, for placing underscores. -/
inductive Before where
  /-- Nothing yet. -/
  | start
  /-- A digit, or the radix mark. -/
  | digit
  /-- An underscore. -/
  | separator
  /-- Anything else. -/
  | other
  deriving DecidableEq, Repr

/-- Does every underscore stand between two digits? -/
def separatorsFit (isDig : Char → Bool) : Before → List Char → Bool
  | before, [] => before != .separator
  | before, c :: cs =>
    if isDig c then separatorsFit isDig .digit cs
    else if c = '_' then before == .digit && separatorsFit isDig .separator cs
    else before != .separator && separatorsFit isDig .other cs

/-- A hexadecimal digit. -/
def isHexDigit (c : Char) : Bool :=
  isAsciiDigit c || ('a' ≤ c && c ≤ 'f') || ('A' ≤ c && c ≤ 'F')

/-- Are the underscores of a numeral well placed?  The radix mark counts as a digit. -/
def separatorsOk : List Char → Bool
  | '0' :: m :: cs =>
    if m = 'x' || m = 'X' then separatorsFit isHexDigit .digit cs
    else if m = 'b' || m = 'B' || m = 'o' || m = 'O' then separatorsFit isAsciiDigit .digit cs
    else separatorsFit isAsciiDigit .start ('0' :: m :: cs)
  | cs => separatorsFit isAsciiDigit .start cs

/-- Reads an unsigned numeral whose value lies below `2 ^ 64`. -/
def readUnsignedChars (cs : List Char) : Except NumeralError Nat :=
  if cs.isEmpty then .error .malformed
  else do
    let (radix, digits) := splitRadix cs
    let n ← readDigits radix (Nat.pow 2 64) true 0 digits
    if cs.contains '_' && !separatorsOk cs then .error .malformed
    else .ok n

/-- Reads an unsigned 64-bit numeral. -/
def readUnsigned (s : String) : Except NumeralError UInt64 :=
  (readUnsignedChars s.toList).map fun n => UInt64.ofNat n

/-- Takes an optional sign off a numeral. -/
def splitSign : List Char → Bool × List Char
  | '+' :: cs => (false, cs)
  | '-' :: cs => (true, cs)
  | cs => (false, cs)

/-- The signed 64-bit value of a magnitude. -/
def applySign (negative : Bool) (n : Nat) : Except NumeralError Int64 :=
  if negative then
    if Nat.pow 2 63 < n then .error .outOfRange else .ok (Int64.ofInt (-(n : Int)))
  else
    if Nat.pow 2 63 ≤ n then .error .outOfRange else .ok (Int64.ofInt n)

/-- Reads a signed 64-bit numeral. -/
def readSigned (s : String) : Except NumeralError Int64 := do
  let (negative, digits) := splitSign s.toList
  let n ← readUnsignedChars digits
  applySign negative n

/-- Reads a signed decimal numeral: an optional sign and digits only. -/
def readDecimal (s : String) : Except NumeralError Int64 := do
  let (negative, digits) := splitSign s.toList
  if digits.isEmpty then .error .malformed
  else
    let n ← readDigits 10 (Nat.pow 2 64) false 0 digits
    applySign negative n

/-- Reads a truth value in one of its accepted spellings. -/
def readBool (s : String) : Option Bool :=
  if ["1", "t", "T", "TRUE", "true", "True"].contains s then some true
  else if ["0", "f", "F", "FALSE", "false", "False"].contains s then some false
  else none

end Midend.Text
