import Midend.Opcode
import Midend.Source.Token
import Midend.Ty

/-!
# Errors in program text

Each error has a cause, a place in the text, and, once the text has a name, a message of the form
`name:line:column: reason`.
-/

namespace Midend.Source

/-- What stands where something else was expected. -/
inductive Found where
  /-- The end of the text. -/
  | endOfFile
  /-- The end of a line. -/
  | endOfLine
  /-- A token. -/
  | token (text : String)
  deriving DecidableEq, Repr, Inhabited

/-- What a token is found as. -/
def Token.found (t : Token) : Found :=
  match t.kind with
  | .eof => .endOfFile
  | .mark '\n' => .endOfLine
  | _ => .token t.text

/-- The wording of what was found. -/
def Found.text : Found → String
  | .endOfFile => "end of file"
  | .endOfLine => "end of line"
  | .token s => Text.quote s

/-- The causes of errors. -/
inductive Reason where
  /-- The text cannot be read. -/
  | unreadable (why : LexError)
  /-- A mark is missing. -/
  | expectedMark (c : Char) (found : Found)
  /-- A word is missing. -/
  | expectedWord (found : Found)
  /-- A name is missing. -/
  | expectedName (found : Found)
  /-- An operand is missing. -/
  | expectedOperand (found : Found)
  /-- A word is no type. -/
  | badType (why : TyError)
  /-- Something follows where a line should end. -/
  | trailing (found : Found)
  /-- A declaration starts with the wrong word. -/
  | unknownDeclaration (word : String)
  /-- An integer does not fit. -/
  | badLiteral (text : String)
  /-- A word is no operation. -/
  | unknownOpcode (word : String)
  /-- An instruction without a result has a name. -/
  | namedVoid (op : Opcode) (name : String)
  /-- An instruction stands before the first label. -/
  | outsideBlock
  /-- The text ends within a function. -/
  | unclosedFunction (name : String)
  /-- Two global variables have the same name. -/
  | duplicatedGlobal (name : String)
  /-- Two functions have the same name. -/
  | duplicatedFunction (name : String)
  /-- Two parameters have the same name. -/
  | duplicatedParam (name : String)
  /-- Two blocks have the same label. -/
  | duplicatedLabel (name : String)
  /-- Two values have the same name. -/
  | duplicatedValue (name : String)
  /-- An instruction follows a terminator. -/
  | afterTerminator (op : Opcode) (block : String)
  /-- A value is used before its definition in the same block. -/
  | usedBeforeDefined (name : String)
  /-- There is no such value. -/
  | undefinedValue (name : String)
  /-- There is no such global variable. -/
  | undefinedGlobal (name : String)
  /-- There is no such block. -/
  | undefinedLabel (name : String)
  deriving DecidableEq, Repr, Inhabited

/-- The wording of a cause. -/
def Reason.text : Reason → String
  | .unreadable why => why.message
  | .expectedMark c f => s!"expected {Text.quoteChar c}, found {f.text}"
  | .expectedWord f => s!"expected identifier, found {f.text}"
  | .expectedName f => s!"expected name, found {f.text}"
  | .expectedOperand f => s!"expected operand, found {f.text}"
  | .badType why => why.message
  | .trailing f => s!"unexpected {f.text} at end of instruction"
  | .unknownDeclaration w => s!"expected \"global\" or \"func\", found {Text.quote w}"
  | .badLiteral s => s!"invalid integer literal {s}"
  | .unknownOpcode w => s!"unknown opcode {Text.quote w}"
  | .namedVoid op n => s!"{op.text} does not produce a value, but is named %{n}"
  | .outsideBlock => "instruction outside of a basic block"
  | .unclosedFunction n => s!"unexpected end of file in function @{n}"
  | .duplicatedGlobal n => s!"duplicated global @{n}"
  | .duplicatedFunction n => s!"duplicated function @{n}"
  | .duplicatedParam n => s!"duplicated parameter %{n}"
  | .duplicatedLabel n => s!"duplicated block label {n}"
  | .duplicatedValue n => s!"duplicated value %{n}"
  | .afterTerminator op b => s!"{op.text} follows the terminator of block {b}"
  | .usedBeforeDefined n => s!"value %{n} is used before it is defined"
  | .undefinedValue n => s!"undefined value %{n}"
  | .undefinedGlobal n => s!"undefined global @{n}"
  | .undefinedLabel n => s!"undefined block label {n}"

/-- An error at a place of a text. -/
structure SourceError where
  /-- The place. -/
  pos : Position
  /-- The cause. -/
  reason : Reason
  deriving DecidableEq, Repr, Inhabited

/-- An error in a named text. -/
structure ParseError extends SourceError where
  /-- The name of the text. -/
  file : String
  deriving DecidableEq, Repr, Inhabited

/-- The message of an error. -/
def ParseError.message (e : ParseError) : String :=
  s!"{e.file}:{e.pos.line}:{e.pos.column}: {e.reason.text}"

end Midend.Source
