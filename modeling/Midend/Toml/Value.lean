import Midend.Text.Quoted

/-!
# TOML values

A document is a table of named values; tables nest.  Arrays of tables that are written with headers
are kept apart from arrays that are written as values, because only the former can grow.

## Main definitions

* `Key`: a dotted key, and its text.
* `Value`, `Table`: the values.
* `Error`: why a text is no document, or not the one that was expected.
-/

namespace Midend.Toml

/-- A dotted key: its parts from the outside in. -/
abbrev Key := List String

/-- May the character stand in a part of a key that is not quoted? -/
def isBareChar (c : Char) : Bool := c.isAlphanum || c = '_' || c = '-'

/-- A character as it is written in a quoted part of a key. -/
def quotedKeyChar (c : Char) : List Char :=
  if c = '"' || c = '\\' then ['\\', c]
  else
    match c.toNat with
    | 0x08 => ['\\', 'b']
    | 0x09 => ['\\', 't']
    | 0x0A => ['\\', 'n']
    | 0x0C => ['\\', 'f']
    | 0x0D => ['\\', 'r']
    | n => if n < 0x20 || n = 0x7F then '\\' :: 'u' :: Text.hexDigits 4 n else [c]

/-- A part of a key, quoted if it has to be. -/
def partText (part : String) : String :=
  if part.toList.all isBareChar && part != "" then part
  else String.ofList ('"' :: (part.toList.flatMap quotedKeyChar ++ ['"']))

/-- The text of a key. -/
def Key.text (k : Key) : String := ".".intercalate (k.map partText)

/-- A value of a document. -/
inductive Value where
  /-- A text. -/
  | string (s : String)
  /-- An integer. -/
  | integer (n : Int)
  /-- A floating-point number, as it was written. -/
  | float (text : String)
  /-- A truth value. -/
  | boolean (b : Bool)
  /-- A date, a time or both, as it was written. -/
  | datetime (text : String)
  /-- An array that was written as a value. -/
  | array (items : List Value)
  /-- A table. -/
  | table (entries : List (String × Value))
  /-- Tables that were written one by one under the same header. -/
  | tables (items : List (List (String × Value)))
  deriving Repr, Inhabited

/-- Named values in the order in which the names came up. -/
abbrev Table := List (String × Value)

namespace Table

/-- Is there a value of this name? -/
def has (t : Table) (name : String) : Bool := (t.lookup name).isSome

/-- Gives a name a value.  A name that is there keeps its place. -/
def put (name : String) (v : Value) : Table → Table
  | [] => [(name, v)]
  | (n, w) :: rest => if n = name then (n, v) :: rest else (n, w) :: put name v rest

/-- The table at the end of a path.  In tables under the same header the path goes on in the last
one. -/
def at? : Key → Table → Option Table
  | [], t => some t
  | k :: ks, t =>
    match t.lookup k with
    | some (.table t') => at? ks t'
    | some (.tables ts) => ts.getLast?.bind (at? ks)
    | _ => none

/-- Replaces the table at the end of a path, if there is one. -/
def modifyAt (f : Table → Table) : Key → Table → Table
  | [], t => f t
  | k :: ks, t =>
    match t.lookup k with
    | some (.table t') => t.put k (.table (modifyAt f ks t'))
    | some (.tables ts) =>
      match ts.getLast? with
      | some t' => t.put k (.tables (ts.dropLast ++ [modifyAt f ks t']))
      | none => t
    | _ => t

end Table

/-- Why a text is no document, or not the one that was expected. -/
inductive Error where
  /-- A byte belongs to no character, or a control character stands in the text. -/
  | badCharacter
  /-- The text ends too early. -/
  | unfinished
  /-- Something else was expected here. -/
  | unexpected (c : Char)
  /-- A backslash begins no escape. -/
  | badEscape
  /-- A quoted text ends in too many quotes. -/
  | tooManyQuotes
  /-- A number is written in a form that is not allowed. -/
  | badNumber (text : String)
  /-- A number does not fit. -/
  | outOfRange (text : String)
  /-- There is no such date or time. -/
  | badDatetime (text : String)
  /-- A key has a value already. -/
  | alreadyDefined (key : Key)
  /-- A key was used as a table and is none. -/
  | notATable (key : Key)
  /-- A value has another type than it should have. -/
  | wrongType (key : Key) (expected : String)
  deriving DecidableEq, Repr, Inhabited

/-- The wording of an error. -/
def Error.message : Error → String
  | .badCharacter => "invalid character"
  | .unfinished => "unexpected end of file"
  | .unexpected c => s!"unexpected {Text.quoteChar c}"
  | .badEscape => "invalid escape"
  | .tooManyQuotes => "too many quotes"
  | .badNumber text => s!"invalid number {Text.quote text}"
  | .outOfRange text => s!"{text} is out of range"
  | .badDatetime text => s!"invalid datetime {Text.quote text}"
  | .alreadyDefined key => s!"key {key.text} has already been defined"
  | .notATable key => s!"key {key.text} is not a table"
  | .wrongType key expected => s!"key {key.text} is not of type {expected}"

end Midend.Toml
