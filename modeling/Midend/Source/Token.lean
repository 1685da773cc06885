import Midend.Text.Digit
import Midend.Text.Letter
import Midend.Text.Numeral
import Midend.Text.Quoted
import Midend.Text.Utf8

/-!
# Tokens of program text

Program text consists of words, integers and marks.  A word is made of letters, digits, `_` and
`.`, and does not start with a digit.  The end of a line is a mark of its own; other blanks and
comments (`//` to the end of the line, and `/*` to `*/`) separate tokens and are dropped.

A text may be unreadable from some point on: at a NUL, at a byte that is no UTF-8, at a malformed
integer, or in a comment that does not end.  The tokens before that point are still delivered;
the token that the unreadable character follows immediately is not.

## Main definitions

* `Position`: a place in a text.
* `Token`: a token and where it starts.
* `TokenStream`: the tokens of a text and how they end.
* `TokenStream.ofSymbols`: the tokens of a text.
-/

namespace Midend.Source

open Midend.Text (Symbol)

/-! ### Positions -/

/-- A place in a text.  Lines and columns count from 1, columns in characters. -/
structure Position where
  /-- The line. -/
  line : Nat
  /-- The column. -/
  column : Nat
  deriving DecidableEq, Repr, Inhabited

/-- The place behind a symbol. -/
def Position.after (pos : Position) (s : Symbol) : Position :=
  if s = .char '\n' then ⟨pos.line + 1, 1⟩ else ⟨pos.line, pos.column + 1⟩

/-- The text that is left, and where it starts. -/
structure Cursor where
  /-- The symbols that are left. -/
  rest : List Symbol
  /-- The place of the first of them. -/
  pos : Position
  deriving DecidableEq, Repr, Inhabited

/-- Moves behind the first symbol. -/
def Cursor.advance (c : Cursor) : Cursor :=
  match c.rest with
  | [] => c
  | s :: rest => ⟨rest, c.pos.after s⟩

/-- The next character. -/
def Cursor.peek? (c : Cursor) : Option Char :=
  match c.rest with
  | .char ch :: _ => some ch
  | _ => none

/-! ### Errors -/

/-- The ways to write an integer. -/
inductive Radix where
  /-- Without a mark. -/
  | decimal
  /-- With the mark `0x`. -/
  | hexadecimal
  /-- With the mark `0o`, or just `0`. -/
  | octal
  /-- With the mark `0b`. -/
  | binary
  deriving DecidableEq, Repr, Inhabited

namespace Radix

/-- What an integer written this way is called. -/
def literal : Radix → String
  | .decimal => "decimal literal"
  | .hexadecimal => "hexadecimal literal"
  | .octal => "octal literal"
  | .binary => "binary literal"

/-- The characters that may continue an integer written this way.  Decimal digits that are too
large belong to it, to be complained about. -/
def continues (r : Radix) (c : Char) : Bool :=
  c = '_' || (if r = .hexadecimal then Text.isHexDigit c else Text.isAsciiDigit c)

/-- Is the character a digit that is too large? -/
def isTooLarge (r : Radix) (c : Char) : Bool :=
  match r with
  | .octal => '8' ≤ c && c ≤ '9'
  | .binary => '2' ≤ c && c ≤ '9'
  | _ => false

end Radix

/-- Why a text is unreadable. -/
inductive LexError where
  /-- There is a NUL. -/
  | nul
  /-- There is a byte that is no UTF-8. -/
  | invalidUtf8
  /-- An integer has a mark but no digits. -/
  | noDigits (radix : Radix)
  /-- An integer has a digit that is too large. -/
  | invalidDigit (digit : Char) (radix : Radix)
  /-- An integer has an underscore that does not stand between digits. -/
  | misplacedSeparator
  /-- A comment does not end. -/
  | openComment
  deriving DecidableEq, Repr, Inhabited

/-- The wording of an error. -/
def LexError.message : LexError → String
  | .nul => "invalid character NUL"
  | .invalidUtf8 => "invalid UTF-8 encoding"
  | .noDigits r => s!"{r.literal} has no digits"
  | .invalidDigit d r => s!"invalid digit {Text.quoteChar d} in {r.literal}"
  | .misplacedSeparator => "'_' must separate successive digits"
  | .openComment => "comment not terminated"

/-- Why a symbol cannot be read, if it cannot. -/
def symbolError? : Symbol → Option LexError
  | .invalid => some .invalidUtf8
  | .char c => if c.toNat = 0 then some .nul else none

/-- Why the next symbol cannot be read, if it cannot. -/
def Cursor.unreadable? (c : Cursor) : Option LexError := c.rest.head?.bind symbolError?

/-! ### Tokens -/

/-- The kinds of tokens. -/
inductive TokenKind where
  /-- A word. -/
  | word
  /-- An integer. -/
  | int
  /-- Any other character. -/
  | mark (c : Char)
  /-- The end of the text. -/
  | eof
  deriving DecidableEq, Repr, Inhabited

/-- A token, its text, and where it starts. -/
structure Token where
  /-- The kind. -/
  kind : TokenKind
  /-- The text. -/
  text : String
  /-- Where it starts. -/
  pos : Position
  deriving DecidableEq, Repr, Inhabited

/-- The tokens of a text. -/
inductive TokenStream where
  /-- The text ends here. -/
  | eof (pos : Position)
  /-- The text cannot be read any further. -/
  | broken (pos : Position) (why : LexError)
  /-- A token, and what follows it. -/
  | cons (token : Token) (rest : TokenStream)
  deriving Repr, Inhabited

/-- The current token of a stream. -/
def TokenStream.current : TokenStream → Token
  | .eof pos => ⟨.eof, "", pos⟩
  | .broken pos _ => ⟨.eof, "", pos⟩
  | .cons t _ => t

/-- The number of tokens of a stream. -/
def TokenStream.length : TokenStream → Nat
  | .cons _ rest => rest.length + 1
  | _ => 0

/-- The stream behind the ends of lines it starts with. -/
def TokenStream.dropNewlines : TokenStream → TokenStream
  | .cons t rest => if t.kind = .mark '\n' then rest.dropNewlines else .cons t rest
  | s => s

/-! ### Reading tokens -/

/-- A blank that is not the end of a line. -/
def isBlank (c : Char) : Bool := c = '\t' || c = '\r' || c = ' '

/-- A character that can start a word. -/
def startsWord (c : Char) : Bool := c = '_' || c = '.' || Text.isLetter c

/-- A character that can continue a word. -/
def continuesWord (c : Char) : Bool := startsWord c || Text.isDigit c

/-- Splits off the longest run of characters of a class. -/
def span (q : Char → Bool) (pos : Position) : List Symbol → List Char × Cursor
  | .char c :: rest =>
    if q c then
      let (cs, after) := span q (pos.after (.char c)) rest
      (c :: cs, after)
    else ([], ⟨.char c :: rest, pos⟩)
  | rest => ([], ⟨rest, pos⟩)

/-- Splits off the longest run of characters of a class. -/
def Cursor.span (c : Cursor) (q : Char → Bool) : List Char × Cursor :=
  Source.span q c.pos c.rest

/-- Reads the rest of a comment that ends with `*/`, where `star` says whether a `*` was just
read.  The reading stops at the end of the text and before a symbol that cannot be read; then
the comment was not closed. -/
def skipComment (star : Bool) (pos : Position) : List Symbol → Bool × Cursor
  | [] => (false, ⟨[], pos⟩)
  | s :: rest =>
    if (symbolError? s).isSome then (false, ⟨s :: rest, pos⟩)
    else if star && s = .char '/' then (true, ⟨rest, pos.after s⟩)
    else skipComment (s = .char '*') (pos.after s) rest

/-- The mark of an integer that starts with `0`: its radix and its characters. -/
def radixMark : Option Char → Radix × List Char
  | some 'x' => (.hexadecimal, ['x'])
  | some 'X' => (.hexadecimal, ['X'])
  | some 'o' => (.octal, ['o'])
  | some 'O' => (.octal, ['O'])
  | some 'b' => (.binary, ['b'])
  | some 'B' => (.binary, ['B'])
  | _ => (.octal, [])

/-- What is wrong with an integer whose characters are all read.  `digits` are its characters
behind the mark; without a mark they include the leading digit. -/
def integerError? (radix : Radix) (digits text : List Char) : Option LexError :=
  if digits.all (· = '_') then some (.noDigits radix)
  else
    match digits.find? radix.isTooLarge with
    | some d => some (.invalidDigit d radix)
    | none =>
      if text.contains '_' && !Text.separatorsOk text then some .misplacedSeparator else none

/-- Reads an integer that starts with the digit `d`, from behind that digit. -/
def readInteger (d : Char) (c : Cursor) : List Char × Option LexError × Cursor :=
  if d = '0' then
    let (radix, mark) := radixMark c.peek?
    let c := if mark.isEmpty then c else c.advance
    let (cs, after) := c.span radix.continues
    let text := '0' :: (mark ++ cs)
    (text, integerError? radix (if mark.isEmpty then text else cs) text, after)
  else
    let (cs, after) := c.span Radix.decimal.continues
    (d :: cs, integerError? .decimal (d :: cs) (d :: cs), after)

/-- The stream of a token that ends before `after`, where `error?` is what is wrong with the
token itself.  A symbol behind the token that cannot be read is found first. -/
def deliver (token : Token) (error? : Option LexError) (after : Cursor)
    (rest : TokenStream) : TokenStream :=
  match after.unreadable? with
  | some e => .broken after.pos e
  | none =>
    match error? with
    | some e => .broken after.pos e
    | none => .cons token rest

/-- The tokens from a cursor on.  Each token and each comment takes at least one symbol, so
`fuel` is enough if it exceeds the number of symbols. -/
def tokensFrom : Nat → Cursor → TokenStream
  | 0, c => .eof c.pos
  | fuel + 1, c =>
    let c := (c.span isBlank).2
    match c.unreadable? with
    | some e => .broken c.pos e
    | none =>
      match c.peek? with
      | none => .eof c.pos
      | some ch =>
        if startsWord ch then
          let (cs, after) := c.span continuesWord
          deliver ⟨.word, String.ofList cs, c.pos⟩ none after (tokensFrom fuel after)
        else if Text.isAsciiDigit ch then
          let (cs, error?, after) := readInteger ch c.advance
          deliver ⟨.int, String.ofList cs, c.pos⟩ error? after (tokensFrom fuel after)
        else
          let after := c.advance
          if ch = '/' && after.peek? = some '/' then
            let after := (after.span fun x => x ≠ '\n' && x.toNat ≠ 0).2
            match after.unreadable? with
            | some e => .broken after.pos e
            | none => tokensFrom fuel after
          else if ch = '/' && after.peek? = some '*' then
            let (closed, after) := skipComment false after.advance.pos after.advance.rest
            match after.unreadable? with
            | some e => .broken after.pos e
            | none => if closed then tokensFrom fuel after else .broken after.pos .openComment
          else
            deliver ⟨.mark ch, String.ofList [ch], c.pos⟩ none after (tokensFrom fuel after)

/-- The cursor at the start of a text.  A byte order mark in front is passed over. -/
def Cursor.start (symbols : List Symbol) : Cursor :=
  match symbols with
  | .char '\uFEFF' :: rest => ⟨rest, ⟨1, 2⟩⟩
  | _ => ⟨symbols, ⟨1, 1⟩⟩

/-- The tokens of a text. -/
def TokenStream.ofSymbols (symbols : List Symbol) : TokenStream :=
  tokensFrom (symbols.length + 1) (Cursor.start symbols)

end Midend.Source
