import Midend.Source.Syntax

/-!
# The grammar of program text

Which lists of tokens are programs, and what they say.  The rules are those of the text format; how a
text is read is not mentioned.

* A program is a sequence of ends of lines and declarations.  After a declaration the line ends, or
  the text does.
* A declaration is `global @name : type` or `func @name(%a : type, ...) : type {`, a body, and `}`.
* A body consists of blocks: a label `name :`, then instructions, each on a line of its own.
* An instruction has the operands, labels and types of its operation, and `%name =` in front only if
  it has a result.

A name is a word or an integer.  A comma may follow the last parameter of a function and the last
argument of a call.

## Main definitions

* `Token.IsMark`, `Token.IsName`, `Token.IsType`: single tokens.
* `Grammar.IsOperand`, `Grammar.IsBody`, `Grammar.IsFunc`, `Grammar.IsProgram`: the constructs.
* `Text.magnitude`: the number an integer token stands for.
-/

namespace Midend.Text

/-- The value of a digit, of any radix. -/
def digitOf (c : Char) : Nat := (digitValue? c).getD 0

/-- The number a numeral stands for, its underscores left out. -/
def magnitude (text : String) : Nat :=
  ((splitRadix text.toList).2.filter (· ≠ '_')).foldl
    (fun n c => n * (splitRadix text.toList).1 + digitOf c) 0

end Midend.Text

namespace Midend.Source

/-! ### Single tokens -/

namespace Token

/-- The token is a certain mark. -/
abbrev IsMark (t : Token) (c : Char) : Prop := t.kind = .mark c

/-- The token is a certain word. -/
def IsWord (t : Token) (w : String) : Prop := t.kind = .word ∧ t.text = w

/-- The token is a name: a word or an integer. -/
def IsName (t : Token) : Prop := t.kind = .word ∨ t.kind = .int

/-- The token names a type. -/
def IsType (t : Token) (ty : Ty) : Prop := t.kind = .word ∧ Ty.parse t.text = .ok ty

/-- The token is an operation. -/
def IsOpcode (t : Token) (op : Opcode) : Prop := t.kind = .word ∧ Opcode.parse? t.text = some op

end Token

namespace Grammar

/-! ### Instructions -/

/-- Operands.  An integer fits in 64 bits, its sign included. -/
inductive IsOperand : List Token → Operand → Prop where
  | value {m n : Token} : m.IsMark '%' → n.IsName → IsOperand [m, n] ⟨m.pos, .value n.text⟩
  | global {m n : Token} : m.IsMark '@' → n.IsName → IsOperand [m, n] ⟨m.pos, .global n.text⟩
  | literal {t : Token} {v : Int64} : t.kind = .int → v.toInt = Text.magnitude t.text →
      IsOperand [t] ⟨t.pos, .literal v⟩
  | negative {m t : Token} {v : Int64} : m.IsMark '-' → t.kind = .int →
      v.toInt = -Text.magnitude t.text → IsOperand [m, t] ⟨m.pos, .literal v⟩

/-- Two operands with a comma between them. -/
inductive IsPair : List Token → List Operand → Prop where
  | mk {l l' : List Token} {x y : Operand} {comma : Token} : IsOperand l x → comma.IsMark ',' →
      IsOperand l' y → IsPair (l ++ comma :: l') [x, y]

/-- Items with commas between them.  A comma may follow the last one. -/
inductive Separated {α : Type} (Item : List Token → α → Prop) : List Token → List α → Prop where
  | none : Separated Item [] []
  | last {l : List Token} {a : α} : Item l a → Separated Item l [a]
  | more {l l' : List Token} {a : α} {as : List α} {comma : Token} : Item l a →
      comma.IsMark ',' → Separated Item l' as → Separated Item (l ++ comma :: l') (a :: as)

/-- What follows the operation of the instruction `i`, and the instruction with it. -/
inductive Completes (i : InstrSyntax) : List Token → InstrSyntax → Prop where
  | arith {l : List Token} {t : Token} {ty : Ty} {args : List Operand} :
      i.op ∈ [.add, .sub, .mul, .div] → t.IsType ty → IsPair l args →
      Completes i (t :: l) { i with ty := ty, args := args }
  | cmp {l : List Token} {t : Token} {elem : Ty} {args : List Operand} :
      i.op = .cmp → t.IsType elem → IsPair l args →
      Completes i (t :: l) { i with ty := .i1, elem := elem, args := args }
  | alloca {t : Token} {elem : Ty} : i.op = .alloca → t.IsType elem →
      Completes i [t] { i with ty := .ptr, elem := elem }
  | load {l : List Token} {t comma : Token} {ty : Ty} {x : Operand} :
      i.op = .load → t.IsType ty → comma.IsMark ',' → IsOperand l x →
      Completes i (t :: comma :: l) { i with ty := ty, args := [x] }
  | store {l : List Token} {t : Token} {elem : Ty} {args : List Operand} :
      i.op = .store → t.IsType elem → IsPair l args →
      Completes i (t :: l) { i with elem := elem, args := args }
  | call {l : List Token} {t m n opening closing : Token} {ty : Ty} {args : List Operand} :
      i.op = .call → t.IsType ty → m.IsMark '@' → n.IsName → opening.IsMark '(' →
      Separated IsOperand l args → closing.IsMark ')' →
      Completes i (t :: m :: n :: opening :: (l ++ [closing]))
        { i with ty := ty, callee := n.text, args := args }
  | br {n : Token} : i.op = .br → n.IsName →
      Completes i [n] { i with targets := [⟨n.pos, n.text⟩] }
  | condbr {l : List Token} {x : Operand} {comma yes comma' no : Token} :
      i.op = .condbr → IsOperand l x → comma.IsMark ',' → yes.IsName → comma'.IsMark ',' →
      no.IsName → Completes i (l ++ [comma, yes, comma', no])
        { i with args := [x], targets := [⟨yes.pos, yes.text⟩, ⟨no.pos, no.text⟩] }
  | retVoid {t : Token} : i.op = .ret → t.IsWord "void" → Completes i [t] i
  | ret {l : List Token} {t : Token} {elem : Ty} {x : Operand} :
      i.op = .ret → t.IsType elem → elem ≠ .void → IsOperand l x →
      Completes i (t :: l) { i with elem := elem, args := [x] }

/-- Instructions.  Only a result can be named. -/
inductive IsInstr : List Token → InstrSyntax → Prop where
  | plain {l : List Token} {w : Token} {op : Opcode} {i : InstrSyntax} : w.IsOpcode op →
      Completes { pos := w.pos, op := op } l i → IsInstr (w :: l) i
  | named {l : List Token} {m n eq w : Token} {op : Opcode} {i : InstrSyntax} : m.IsMark '%' →
      n.IsName → eq.IsMark '=' → w.IsOpcode op →
      Completes { pos := m.pos, op := op, name := n.text } l i → i.ty ≠ .void →
      IsInstr (m :: n :: eq :: w :: l) i

/-! ### Declarations -/

/-- Instructions, each with the end of its line, and empty lines. -/
inductive IsLines : List Token → List InstrSyntax → Prop where
  | done : IsLines [] []
  | empty {l : List Token} {nl : Token} {is : List InstrSyntax} : nl.IsMark '\n' → IsLines l is →
      IsLines (nl :: l) is
  | instr {l l' : List Token} {nl : Token} {i : InstrSyntax} {is : List InstrSyntax} :
      IsInstr l i → nl.IsMark '\n' → IsLines l' is → IsLines (l ++ nl :: l') (i :: is)

/-- Blocks: a label and the lines up to the next label.  Empty lines may come first. -/
inductive IsBody : List Token → List BlockSyntax → Prop where
  | done : IsBody [] []
  | empty {l : List Token} {nl : Token} {bs : List BlockSyntax} : nl.IsMark '\n' → IsBody l bs →
      IsBody (nl :: l) bs
  | block {l l' : List Token} {n colon : Token} {is : List InstrSyntax} {bs : List BlockSyntax} :
      n.IsName → colon.IsMark ':' → IsLines l is → IsBody l' bs →
      IsBody (n :: colon :: (l ++ l')) ({ pos := n.pos, name := n.text, instrs := is } :: bs)

/-- A parameter. -/
inductive IsParam : List Token → ParamSyntax → Prop where
  | mk {m n colon t : Token} {ty : Ty} : m.IsMark '%' → n.IsName → colon.IsMark ':' →
      t.IsType ty → IsParam [m, n, colon, t] ⟨m.pos, n.text, ty⟩

/-- The type of the result of a function.  Without one there is no result. -/
inductive IsResult : List Token → Ty → Prop where
  | none : IsResult [] .void
  | some {colon t : Token} {ty : Ty} : colon.IsMark ':' → t.IsType ty → IsResult [colon, t] ty

/-- The declaration of a global variable. -/
inductive IsGlobal : List Token → GlobalSyntax → Prop where
  | mk {w m n colon t : Token} {ty : Ty} : w.IsWord "global" → m.IsMark '@' → n.IsName →
      colon.IsMark ':' → t.IsType ty → IsGlobal [w, m, n, colon, t] ⟨n.text, ty⟩

/-- The declaration of a function. -/
inductive IsFunc : List Token → FuncSyntax → Prop where
  | mk {w m n opening closing left right : Token} {ps r body : List Token}
      {params : List ParamSyntax} {ret : Ty} {blocks : List BlockSyntax} :
      w.IsWord "func" → m.IsMark '@' → n.IsName → opening.IsMark '(' →
      Separated IsParam ps params → closing.IsMark ')' → IsResult r ret →
      left.IsMark '\x7b' → IsBody body blocks → right.IsMark '\x7d' →
      IsFunc (w :: m :: n :: opening :: (ps ++ closing :: (r ++ left :: (body ++ [right]))))
        { pos := w.pos, name := n.text, ret := ret, params := params, blocks := blocks }

/-- The line ends before these tokens, or the text does. -/
def LineEnds (l : List Token) : Prop := ∀ t ∈ l.head?, t.IsMark '\n'

/-- Programs. -/
inductive IsProgram : List Token → ProgramSyntax → Prop where
  | done : IsProgram [] {}
  | empty {l : List Token} {nl : Token} {p : ProgramSyntax} : nl.IsMark '\n' → IsProgram l p →
      IsProgram (nl :: l) p
  | global {d l : List Token} {g : GlobalSyntax} {p : ProgramSyntax} : IsGlobal d g → LineEnds l →
      IsProgram l p → IsProgram (d ++ l) { p with globals := g :: p.globals }
  | func {d l : List Token} {f : FuncSyntax} {p : ProgramSyntax} : IsFunc d f → LineEnds l →
      IsProgram l p → IsProgram (d ++ l) { p with funcs := f :: p.funcs }

end Grammar

end Midend.Source
