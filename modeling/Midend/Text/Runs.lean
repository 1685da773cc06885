/-!
# Sets of characters given by runs

The character classes of this library are unions of runs of code points.  ASCII is decided by
comparison, everything above by a table.  The tables are those of Unicode 17.0, the version that the
runtime of the program comes with; a runtime with an older version has fewer letters, digits and
printable characters.
-/

namespace Midend.Text

/-- A set of code points above ASCII, by the lengths of its runs: so many are left out, so many are
in it, so many are left out, and so on. -/
abbrev Runs := List Nat

/-- Is a code point in the set, if the first run starts at `start`? -/
def Runs.holdsFrom (start : Nat) : Runs → Nat → Bool
  | out :: held :: rest, n =>
    start + out ≤ n && (n < start + out + held || holdsFrom (start + out + held) rest n)
  | _, _ => false

/-- Is a code point in the set? -/
def Runs.holds (rs : Runs) (n : Nat) : Bool := rs.holdsFrom 0x80 n

/-- An ASCII letter. -/
def isAsciiLetter (c : Char) : Bool :=
  ('a' ≤ c && c ≤ 'z') || ('A' ≤ c && c ≤ 'Z')

/-- An ASCII digit. -/
def isAsciiDigit (c : Char) : Bool := '0' ≤ c && c ≤ '9'

end Midend.Text
