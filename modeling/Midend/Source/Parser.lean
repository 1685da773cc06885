import Midend.Source.Error
import Midend.Source.Syntax

/-!
# Parsing programs

The grammar of program text, one action per construct.  Each action looks at the current token
only; moving on to a token that cannot be read is an error at once.

A text is a sequence of declarations, each on a line of its own:

* `global @name : type`
* `func @name(%a: type, ...) : type {`, then labels `name:` and instructions, then `}`.

Loops take the number of tokens left as their bound, and each round takes at least one token.

## Main definitions

* `Parser`: actions on the tokens that are left.
* `Parser.operand`, `Parser.instr`, `Parser.func`, `Parser.program`: the constructs.
* `ProgramSyntax.parse`: the syntax of a text.
-/

namespace Midend.Source

/-- An action on the tokens that are left. -/
abbrev Parser := StateT TokenStream (Except SourceError)

namespace Parser

/-! ### Single tokens -/

/-- Stops with an error. -/
def fail {α : Type} (pos : Position) (reason : Reason) : Parser α :=
  throw ⟨pos, reason⟩

/-- Makes a stream the tokens that are left, unless it cannot be read. -/
def enter : TokenStream → Parser Unit
  | .broken pos why => fail pos (.unreadable why)
  | s => set s

/-- The current token. -/
def current : Parser Token := return (← get).current

/-- Moves on to the next token. -/
def advance : Parser Unit := do
  match ← get with
  | .cons _ rest => enter rest
  | _ => pure ()

/-- The number of tokens that are left. -/
def tokensLeft : Parser Nat := return (← get).length

/-- Is the current token this mark? -/
def atMark (c : Char) : Parser Bool := return (← current).kind = .mark c

/-- Takes a mark. -/
def mark (c : Char) : Parser Unit := do
  let t ← current
  if t.kind = .mark c then advance else fail t.pos (.expectedMark c t.found)

/-- Takes a word. -/
def word : Parser String := do
  let t ← current
  if t.kind = .word then
    advance
    pure t.text
  else fail t.pos (.expectedWord t.found)

/-- Takes a name: a word or an integer. -/
def name : Parser String := do
  let t ← current
  if t.kind = .word || t.kind = .int then
    advance
    pure t.text
  else fail t.pos (.expectedName t.found)

/-- Takes a type. -/
def ty : Parser Ty := do
  let t ← current
  match Ty.parse (← word) with
  | .ok ty => pure ty
  | .error why => fail t.pos (.badType why)

/-- Checks that the line ends here. -/
def endOfLine : Parser Unit := do
  let t ← current
  if t.kind = .mark '\n' || t.kind = .eof then pure () else fail t.pos (.trailing t.found)

/-- Passes over empty lines. -/
def skipLines : Parser Unit := do enter (← get).dropNewlines

/-! ### Instructions -/

/-- Takes an integer.  `pos` is where it starts, its sign included. -/
def integer (pos : Position) (negative : Bool) : Parser Operand := do
  let t ← current
  if t.kind ≠ .int then fail pos (.expectedOperand t.found)
  else
    let text := if negative then "-" ++ t.text else t.text
    match Text.readSigned text with
    | .error _ => fail pos (.badLiteral text)
    | .ok v =>
      advance
      pure ⟨pos, .literal v⟩

/-- Takes an operand. -/
def operand : Parser Operand := do
  let t ← current
  match t.kind with
  | .mark '%' =>
    advance
    pure ⟨t.pos, .value (← name)⟩
  | .mark '@' =>
    advance
    pure ⟨t.pos, .global (← name)⟩
  | .mark '-' =>
    advance
    integer t.pos true
  | _ => integer t.pos false

/-- Takes two operands with a comma between them. -/
def operandPair : Parser (List Operand) := do
  let x ← operand
  mark ','
  let y ← operand
  pure [x, y]

/-- Takes the label of a block to jump to. -/
def target : Parser Target := do
  let t ← current
  pure ⟨t.pos, ← name⟩

/-- Takes the arguments of a call up to the closing parenthesis.  A comma may follow the last
one. -/
def argsFrom : Nat → Parser (List Operand)
  | 0 => pure []
  | fuel + 1 => do
    if ← atMark ')' then pure []
    else
      let x ← operand
      if ← atMark ',' then
        advance
        return x :: (← argsFrom fuel)
      else pure [x]

/-- Takes the operands of an operation, in the shape the operation demands. -/
def instrBody (i : InstrSyntax) : Parser InstrSyntax := do
  match i.op with
  | .cmp =>
    let elem ← ty
    pure { i with ty := .i1, elem := elem, args := ← operandPair }
  | .alloca => pure { i with ty := .ptr, elem := ← ty }
  | .load =>
    let ty ← ty
    mark ','
    pure { i with ty := ty, args := [← operand] }
  | .store =>
    let elem ← ty
    pure { i with elem := elem, args := ← operandPair }
  | .call =>
    let ty ← ty
    mark '@'
    let callee ← name
    mark '('
    let args ← argsFrom ((← tokensLeft) + 1)
    mark ')'
    pure { i with ty := ty, callee := callee, args := args }
  | .br => pure { i with targets := [← target] }
  | .condbr =>
    let cond ← operand
    mark ','
    let yes ← target
    mark ','
    let no ← target
    pure { i with args := [cond], targets := [yes, no] }
  | .ret =>
    let t ← current
    if t.kind = .word && t.text = "void" then
      advance
      pure i
    else
      let elem ← ty
      pure { i with elem := elem, args := [← operand] }
  | _ =>
    let ty ← ty
    pure { i with ty := ty, args := ← operandPair }

/-- Takes the rest of an instruction, behind its operation. -/
def instr (pos : Position) (name : String) (word : String) : Parser InstrSyntax := do
  match Opcode.parse? word with
  | none => fail pos (.unknownOpcode word)
  | some op =>
    let i ← instrBody { pos := pos, op := op, name := name }
    if name ≠ "" && i.ty.isVoid then fail pos (.namedVoid op name)
    endOfLine
    pure i

/-! ### Declarations -/

/-- Adds an instruction to the last block. -/
def addToLast (blocks : List BlockSyntax) (i : InstrSyntax) : List BlockSyntax :=
  match blocks.reverse with
  | [] => []
  | b :: before => before.reverse ++ [{ b with instrs := b.instrs ++ [i] }]

/-- Takes labels and instructions up to the closing brace, behind the given blocks. -/
def bodyFrom (func : String) : Nat → List BlockSyntax → Parser (List BlockSyntax)
  | 0, blocks => pure blocks
  | fuel + 1, blocks => do
    skipLines
    let t ← current
    match t.kind with
    | .mark '\x7d' => pure blocks
    | .mark '%' =>
      advance
      let result ← name
      mark '='
      let op ← word
      if blocks.isEmpty then fail t.pos .outsideBlock
      let i ← instr t.pos result op
      bodyFrom func fuel (addToLast blocks i)
    | .eof => fail t.pos (.unclosedFunction func)
    | _ =>
      let first ← name
      if ← atMark ':' then
        advance
        bodyFrom func fuel (blocks ++ [{ pos := t.pos, name := first }])
      else if blocks.isEmpty then fail t.pos .outsideBlock
      else
        let i ← instr t.pos "" first
        bodyFrom func fuel (addToLast blocks i)

/-- Takes the parameters of a function up to the closing parenthesis.  A comma may follow the
last one. -/
def paramsFrom : Nat → Parser (List ParamSyntax)
  | 0 => pure []
  | fuel + 1 => do
    if ← atMark ')' then pure []
    else
      let t ← current
      mark '%'
      let name ← name
      mark ':'
      let ty ← ty
      if ← atMark ',' then
        advance
        return ⟨t.pos, name, ty⟩ :: (← paramsFrom fuel)
      else pure [⟨t.pos, name, ty⟩]

/-- Takes the rest of a function, behind the word that starts it. -/
def func (pos : Position) : Parser FuncSyntax := do
  mark '@'
  let name ← name
  mark '('
  let params ← paramsFrom ((← tokensLeft) + 1)
  mark ')'
  let ret ←
    if ← atMark ':' then do
      advance
      ty
    else pure Ty.void
  mark '\x7b'
  let blocks ← bodyFrom name ((← tokensLeft) + 1) []
  mark '\x7d'
  endOfLine
  pure { pos := pos, name := name, ret := ret, params := params, blocks := blocks }

/-- Takes the rest of a global variable, behind the word that starts it.  Its name must be
none of the names before. -/
def global (pos : Position) (before : List GlobalSyntax) : Parser GlobalSyntax := do
  mark '@'
  let name ← name
  mark ':'
  let elem ← ty
  endOfLine
  if before.any (·.name = name) then fail pos (.duplicatedGlobal name)
  pure ⟨name, elem⟩

/-- Takes the declarations that are left, behind the given ones. -/
def declsFrom : Nat → ProgramSyntax → Parser ProgramSyntax
  | 0, p => pure p
  | fuel + 1, p => do
    skipLines
    let t ← current
    if t.kind = .eof then pure p
    else
      let w ← word
      if w = "global" then
        let g ← global t.pos p.globals
        declsFrom fuel { p with globals := p.globals ++ [g] }
      else if w = "func" then
        let f ← func t.pos
        declsFrom fuel { p with funcs := p.funcs ++ [f] }
      else fail t.pos (.unknownDeclaration w)

/-- Takes a whole program. -/
def program : Parser ProgramSyntax := do declsFrom ((← tokensLeft) + 1) {}

end Parser

/-- The syntax of a text, given by its tokens. -/
def ProgramSyntax.ofTokens (s : TokenStream) : Except SourceError ProgramSyntax :=
  (do Parser.enter s; Parser.program : Parser ProgramSyntax).run' s

/-- The syntax of a text. -/
def ProgramSyntax.parse (symbols : List Text.Symbol) : Except SourceError ProgramSyntax :=
  ofTokens (.ofSymbols symbols)

end Midend.Source
