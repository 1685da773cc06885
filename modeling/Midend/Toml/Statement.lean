import Midend.Text.Utf8
import Midend.Toml.Datetime
import Midend.Toml.Number
import Midend.Toml.Quotation

/-!
# Statements of a TOML document

A document is written as statements, one to a line: headers that open a table, and keys with
values.  Comments run from a number sign to the end of the line.

## Main definitions

* `Expr`: a value as it is written.
* `Statement`: a header, or a key with a value.
* `statements`: the statements of a file.
-/

namespace Midend.Toml

/-- A value as it is written. -/
inductive Expr where
  /-- A value without parts. -/
  | scalar (v : Value)
  /-- Values between brackets. -/
  | array (items : List Expr)
  /-- Keys and values between braces. -/
  | inline (pairs : List (Key × Expr))
  deriving Repr, Inhabited

/-- A statement of a document. -/
inductive Statement where
  /-- Opens a table. -/
  | header (key : Key)
  /-- Opens a new table at the end of those under the same header. -/
  | arrayHeader (key : Key)
  /-- Gives a key a value. -/
  | pair (key : Key) (value : Expr)
  deriving Repr, Inhabited

/-! ### Characters -/

/-- Is the character refused wherever it stands?  The controls are, and the mark that stands for
text that was lost; only an escape can name them. -/
def isRefused (c : Char) : Bool :=
  (c.toNat < 0x20 && c != '\t' && c != '\r' && c != '\n') || c = '\x7f' || c = '\ufffd'

/-- The characters of a text, if all are allowed.  A carriage return must precede a line feed. -/
def allowedChars : List Text.Symbol → Except Error (List Char)
  | [] => .ok []
  | .invalid :: _ => .error .badCharacter
  | .char c :: rest =>
    if isRefused c || (c = '\r' && rest.head? != some (.char '\n')) then .error .badCharacter
    else do
      let cs ← allowedChars rest
      .ok (c :: cs)

/-- A file's content without the byte-order mark at its start. -/
def dropByteOrderMark (bytes : List UInt8) : List UInt8 :=
  match bytes with
  | 0xEF :: 0xBB :: 0xBF :: rest => rest
  | 0xFF :: 0xFE :: rest => rest
  | 0xFE :: 0xFF :: rest => rest
  | bytes => bytes

/-- A blank. -/
def isBlank (c : Char) : Bool := c = ' ' || c = '\t'

/-- The text behind the blanks at its start. -/
def skipBlanks (cs : List Char) : List Char := cs.dropWhile isBlank

/-- The text behind the blanks, line breaks and comments at its start.  `comment` tells that the
text begins inside a comment. -/
def skipLines (comment : Bool) : List Char → List Char
  | [] => []
  | c :: rest =>
    if comment then skipLines (c != '\n') rest
    else if isSpace c then skipLines false rest
    else if c = '#' then skipLines true rest
    else c :: rest

/-- The complaint about the next character, or about the end of the text. -/
def unexpected {α : Type} : List Char → Except Error α
  | [] => .error .unfinished
  | c :: _ => .error (.unexpected c)

/-! ### Keys -/

/-- Reads one part of a key. -/
def keyPart (cs : List Char) : Except Error (String × List Char) :=
  match skipBlanks cs with
  | '"' :: rest => quotation '"' rest
  | '\'' :: rest => quotation '\'' rest
  | cs =>
    let (name, rest) := cs.span isBareChar
    if name.isEmpty then unexpected cs else .ok (String.ofList name, rest)

/-- Reads a dotted key.  The fuel bounds the number of its parts. -/
def dottedKey : Nat → List Char → Except Error (Key × List Char)
  | 0, cs => unexpected cs
  | fuel + 1, cs => do
    let (part, rest) ← keyPart cs
    match skipBlanks rest with
    | '.' :: rest =>
      let (parts, rest) ← dottedKey fuel rest
      .ok (part :: parts, rest)
    | rest => .ok ([part], rest)

/-- Reads a dotted key and the blanks behind it. -/
def key (cs : List Char) : Except Error (Key × List Char) := dottedKey (cs.length + 1) cs

/-- Takes a character that must be there. -/
def expect (m : Char) : List Char → Except Error (List Char)
  | c :: rest => if c = m then .ok rest else .error (.unexpected c)
  | [] => .error .unfinished

/-! ### Numbers and words -/

/-- A digit or an underscore. -/
def isDecimalChar (c : Char) : Bool := Text.isAsciiDigit c || c = '_'

/-- Does the character lead from an integer to a floating-point number? -/
def startsFraction (c : Char) : Bool := c = '.' || c = 'e' || c = 'E'

/-- A character of a floating-point number. -/
def isFloatChar (c : Char) : Bool := isDecimalChar c || startsFraction c || c = '-' || c = '+'

/-- A character of a date or a time. -/
def isDatetimeChar (c : Char) : Bool :=
  Text.isAsciiDigit c || ['-', ':', 'T', 't', ' ', '.', 'Z', 'z', '+'].contains c

/-- The text of the characters with a property at the start of a text, read as a value. -/
def readWhile (p : Char → Bool) (read : List Char → Except Error Value) (cs : List Char) :
    Except Error (Value × List Char) := do
  let v ← read (cs.takeWhile p)
  .ok (v, cs.dropWhile p)

/-- Reads a decimal number behind `whole`, which are its sign and digits. -/
def decimalFrom (whole rest : List Char) : Except Error (Value × List Char) :=
  if (rest.head?.map startsFraction).getD false then
    readWhile isFloatChar (fun cs => float (whole ++ cs)) rest
  else do
    let v ← integer whole
    .ok (v, rest)

/-- Reads the digits of an integer behind its radix mark.  One digit must be there. -/
def radixInteger (mark : Char) (isDigit : Char → Bool) (cs : List Char) :
    Except Error (Value × List Char) :=
  if (cs.head?.map isDigit).getD false then
    readWhile (fun c => isDigit c || c = '_') (fun ds => integer ('0' :: mark :: ds)) cs
  else .error (.badNumber (String.ofList ['0', mark]))

/-- An octal digit. -/
def isOctal (c : Char) : Bool := '0' ≤ c && c ≤ '7'

/-- A binary digit. -/
def isBinary (c : Char) : Bool := c = '0' || c = '1'

/-- A text without the blanks at its end. -/
def trimEnd (cs : List Char) : List Char := (cs.reverse.dropWhile isBlank).reverse

/-- Reads a number, a date or a time that begins with a digit. -/
def numberOrDatetime (cs : List Char) : Except Error (Value × List Char) :=
  match cs with
  | '0' :: 'x' :: rest => radixInteger 'x' Text.isHexDigit rest
  | '0' :: 'o' :: rest => radixInteger 'o' isOctal rest
  | '0' :: 'b' :: rest => radixInteger 'b' isBinary rest
  | cs =>
    let (digits, rest) := cs.span Text.isAsciiDigit
    match rest with
    | '-' :: _ | ':' :: _ =>
      if digits == ['0'] then .error (.badNumber "0")
      else readWhile isDatetimeChar (fun ds => datetime (trimEnd ds)) cs
    | _ =>
      let (whole, rest) := cs.span isDecimalChar
      decimalFrom whole rest

/-- Reads a number behind its sign. -/
def signedNumber (sign : Char) (cs : List Char) : Except Error (Value × List Char) :=
  match cs with
  | 'i' :: 'n' :: 'f' :: rest => .ok (.float (String.ofList [sign, 'i', 'n', 'f']), rest)
  | 'n' :: 'a' :: 'n' :: rest => .ok (.float (String.ofList [sign, 'n', 'a', 'n']), rest)
  | '0' :: m :: _ =>
    if m = 'b' || m = 'o' || m = 'x' then .error (.unexpected m) else decimal
  | c :: _ => if Text.isAsciiDigit c then decimal else .error (.unexpected c)
  | [] => .error .unfinished
where
  /-- The number, which begins with a digit. -/
  decimal : Except Error (Value × List Char) :=
    let (whole, rest) := cs.span isDecimalChar
    decimalFrom (sign :: whole) rest

/-- Reads a value without parts. -/
def scalar (cs : List Char) : Except Error (Value × List Char) :=
  match cs with
  | '"' :: rest => textValue '"' rest
  | '\'' :: rest => textValue '\'' rest
  | 'i' :: 'n' :: 'f' :: rest => .ok (.float "inf", rest)
  | 'n' :: 'a' :: 'n' :: rest => .ok (.float "nan", rest)
  | 't' :: 'r' :: 'u' :: 'e' :: rest => .ok (.boolean true, rest)
  | 'f' :: 'a' :: 'l' :: 's' :: 'e' :: rest => .ok (.boolean false, rest)
  | '+' :: rest => signedNumber '+' rest
  | '-' :: rest => signedNumber '-' rest
  | c :: _ => if Text.isAsciiDigit c then numberOrDatetime cs else .error (.unexpected c)
  | [] => .error .unfinished

/-! ### Values -/

mutual

/-- Reads a value.  The fuel bounds the depth of the recursion. -/
def expr : Nat → List Char → Except Error (Expr × List Char)
  | 0, cs => unexpected cs
  | fuel + 1, cs =>
    match skipBlanks cs with
    | '[' :: rest => do
      let (items, rest) ← items fuel rest
      .ok (.array items, rest)
    | '\x7b' :: rest =>
      match skipBlanks rest with
      | '\x7d' :: rest => .ok (.inline [], rest)
      | rest => do
        let (ps, rest) ← pairs fuel rest
        .ok (.inline ps, rest)
    | cs => do
      let (v, rest) ← scalar cs
      .ok (.scalar v, rest)

/-- Reads the values of an array behind its bracket or behind a comma. -/
def items : Nat → List Char → Except Error (List Expr × List Char)
  | 0, cs => unexpected cs
  | fuel + 1, cs =>
    match skipLines false cs with
    | ']' :: rest => .ok ([], rest)
    | cs => do
      let (v, rest) ← expr fuel cs
      match skipLines false rest with
      | ']' :: rest => .ok ([v], rest)
      | ',' :: rest =>
        let (vs, rest) ← items fuel rest
        .ok (v :: vs, rest)
      | rest => unexpected rest

/-- Reads the keys and values of a table between braces; at least one must be there. -/
def pairs : Nat → List Char → Except Error (List (Key × Expr) × List Char)
  | 0, cs => unexpected cs
  | fuel + 1, cs => do
    let (k, rest) ← key cs
    let rest ← expect '=' rest
    let (v, rest) ← expr fuel rest
    match skipBlanks rest with
    | '\x7d' :: rest => .ok ([(k, v)], rest)
    | ',' :: rest =>
      let (more, rest) ← pairs fuel rest
      .ok ((k, v) :: more, rest)
    | rest => unexpected rest

end

/-! ### Statements -/

/-- Reads a statement. -/
def statement (cs : List Char) : Except Error (Statement × List Char) :=
  match cs with
  | '[' :: '[' :: rest => do
    let (k, rest) ← key rest
    let rest ← expect ']' rest
    let rest ← expect ']' rest
    .ok (.arrayHeader k, rest)
  | '[' :: rest => do
    let (k, rest) ← key rest
    let rest ← expect ']' rest
    .ok (.header k, rest)
  | cs => do
    let (k, rest) ← key cs
    let rest ← expect '=' rest
    let (v, rest) ← expr (2 * rest.length + 2) rest
    .ok (.pair k v, rest)

/-- Takes the end of a line: blanks, and then a comment or a line break or nothing. -/
def endOfLine (cs : List Char) : Except Error (List Char) :=
  match skipBlanks cs with
  | [] => .ok []
  | c :: rest => if c = '#' || c = '\n' || c = '\r' then .ok (c :: rest) else .error (.unexpected c)

/-- Reads the statements of a text.  The fuel bounds their number. -/
def statementList : Nat → List Char → Except Error (List Statement)
  | 0, cs => unexpected cs
  | fuel + 1, cs =>
    match skipLines false cs with
    | [] => .ok []
    | cs => do
      let (s, rest) ← statement cs
      let rest ← endOfLine rest
      let more ← statementList fuel rest
      .ok (s :: more)

/-- The statements of a file. -/
def statements (bytes : ByteArray) : Except Error (List Statement) := do
  let cs ← allowedChars (Text.Symbol.ofByteListFrom 0 (dropByteOrderMark bytes.data.toList))
  statementList (cs.length + 1) cs

end Midend.Toml
