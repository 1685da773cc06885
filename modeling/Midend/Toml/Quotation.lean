import Midend.Text.Numeral
import Midend.Toml.Value

/-!
# Quoted text in TOML

A text stands between double quotes, where a backslash begins an escape, or between single quotes,
where everything stands for itself.  Three quotes instead of one begin a text that may span lines:
a line break right behind them does not count, and a backslash at the end of a line joins it with
the next.  Up to two quotes may stand directly in front of the closing three.

## Main definitions

* `quotation`: reads a quoted text on one line.
* `textValue`: reads a quoted text of either length.
-/

namespace Midend.Toml

/-- The value of a hexadecimal number. -/
def hexValue (cs : List Char) : Option Nat :=
  cs.foldlM (fun n c =>
    if Text.isHexDigit c then (Text.digitValue? c).map (n * 16 + ·) else none) 0

/-- The character of a code point that is written in hexadecimal. -/
def codePoint (cs : List Char) : Except Error Char :=
  match hexValue cs with
  | some n => if n.isValidChar then .ok (Char.ofNat n) else .error .badEscape
  | none => .error .badEscape

/-- The character that an escape of one letter stands for. -/
def shortEscape? (c : Char) : Option Char :=
  if c = 'b' then some '\x08'
  else if c = 't' then some '\t'
  else if c = 'n' then some '\n'
  else if c = 'f' then some '\x0c'
  else if c = 'r' then some '\r'
  else if c = '"' || c = '\\' then some c
  else none

/-- Replaces the escapes of a text. -/
def unescape : List Char → Except Error (List Char)
  | [] => .ok []
  | '\\' :: 'u' :: a :: b :: c :: d :: rest => do
    let ch ← codePoint [a, b, c, d]
    let more ← unescape rest
    .ok (ch :: more)
  | '\\' :: 'U' :: a :: b :: c :: d :: e :: f :: g :: h :: rest => do
    let ch ← codePoint [a, b, c, d, e, f, g, h]
    let more ← unescape rest
    .ok (ch :: more)
  | '\\' :: c :: rest =>
    match shortEscape? c with
    | some ch => do
      let more ← unescape rest
      .ok (ch :: more)
    | none => .error .badEscape
  | ['\\'] => .error .badEscape
  | c :: rest => do
    let more ← unescape rest
    .ok (c :: more)

/-- The text up to the closing mark on the same line, as it is written.  A backslash keeps the
character behind it from closing the text, if escapes count. -/
def untilMark (mark : Char) (escapes : Bool) : List Char → Except Error (List Char × List Char)
  | [] => .error .unfinished
  | c :: rest =>
    if c = mark then .ok ([], rest)
    else if c = '\n' || c = '\r' then .error (.unexpected c)
    else if escapes && c = '\\' then
      match rest with
      | [] => .error .unfinished
      | d :: rest => do
        let (more, rest) ← untilMark mark escapes rest
        .ok (c :: d :: more, rest)
    else do
      let (more, rest) ← untilMark mark escapes rest
      .ok (c :: more, rest)

/-- Does a text that is read backwards end in two marks, so that three more would be too many?  A
backslash in front of the marks counts as an escape of the first. -/
def twoMarks (mark : Char) (escapes : Bool) : List Char → Bool
  | a :: b :: rest => a = mark && b = mark && !(escapes && rest.head? == some '\\')
  | _ => false

/-- The text up to three closing marks, as it is written.  `before` is what was read so far,
backwards. -/
def untilMarks (mark : Char) (escapes : Bool) (before : List Char) :
    List Char → Except Error (List Char × List Char)
  | [] => .error .unfinished
  | c :: rest =>
    if c = mark && rest.take 2 == [mark, mark] then
      if (rest.drop 2).head? != some mark then .ok (before.reverse, rest.drop 2)
      else if twoMarks mark escapes before then .error .tooManyQuotes
      else untilMarks mark escapes (c :: before) rest
    else if escapes && c = '\\' then
      match rest with
      | [] => .error .unfinished
      | d :: rest => untilMarks mark escapes (d :: c :: before) rest
    else untilMarks mark escapes (c :: before) rest

/-- A text without a line break at its start. -/
def dropFirstBreak : List Char → List Char
  | '\n' :: rest => rest
  | '\r' :: '\n' :: rest => rest
  | cs => cs

/-- A blank or a line break. -/
def isSpace (c : Char) : Bool := c = ' ' || c = '\t' || c = '\r' || c = '\n'

/-- Is there a line break before anything but blanks? -/
def endsLine (cs : List Char) : Bool := (cs.takeWhile isSpace).contains '\n'

/-- Joins lines: a backslash at the end of a line disappears, with all blanks and line breaks
behind it.  `joining` tells that the text is behind such a backslash. -/
def joinLines (joining : Bool) : List Char → List Char
  | [] => []
  | c :: rest =>
    if joining && isSpace c then joinLines true rest
    else if c = '\\' then
      match rest with
      | '\\' :: rest => '\\' :: '\\' :: joinLines false rest
      | rest => if endsLine rest then joinLines true rest else '\\' :: joinLines false rest
    else c :: joinLines false rest

/-- Does a text begin with the given number of hexadecimal digits? -/
def startsWithHex (count : Nat) (cs : List Char) : Bool :=
  count ≤ cs.length && (cs.take count).all Text.isHexDigit

/-- Does every backslash begin an escape, or stand in front of blanks or a line break?  This is
demanded before lines are joined, so an escape cannot span lines. -/
def escapesOk : List Char → Bool
  | [] => true
  | '\\' :: 'u' :: rest => startsWithHex 4 rest && escapesOk rest
  | '\\' :: 'U' :: rest => startsWithHex 8 rest && escapesOk rest
  | '\\' :: c :: rest => ((shortEscape? c).isSome || isSpace c) && escapesOk rest
  | ['\\'] => false
  | _ :: rest => escapesOk rest

/-- Reads a quoted text on one line, behind its opening mark. -/
def quotation (mark : Char) (cs : List Char) : Except Error (String × List Char) := do
  let escapes := mark = '"'
  let (raw, rest) ← untilMark mark escapes cs
  let chars ← if escapes then unescape raw else .ok raw
  .ok (String.ofList chars, rest)

/-- Reads a quoted text that may span lines, behind its opening marks. -/
def longQuotation (mark : Char) (cs : List Char) : Except Error (String × List Char) := do
  let escapes := mark = '"'
  let (raw, rest) ← untilMarks mark escapes [] cs
  let raw := dropFirstBreak raw
  if escapes && !escapesOk raw then .error .badEscape
  let chars ← if escapes then unescape (joinLines false raw) else .ok raw
  .ok (String.ofList chars, rest)

/-- Reads a quoted text of either length, behind its first mark. -/
def textValue (mark : Char) (cs : List Char) : Except Error (Value × List Char) := do
  let (s, rest) ←
    if cs.take 2 == [mark, mark] then longQuotation mark (cs.drop 2) else quotation mark cs
  .ok (.string s, rest)

end Midend.Toml
