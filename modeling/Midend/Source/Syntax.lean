import Midend.Opcode
import Midend.Source.Token
import Midend.Ty

/-!
# The syntax of programs

What a program text says before its names are resolved.  Everything that a later complaint can
point at carries its position.
-/

namespace Midend.Source

/-- What an operand refers to. -/
inductive OperandForm where
  /-- A parameter or an instruction, by name. -/
  | value (name : String)
  /-- A global variable, by name. -/
  | global (name : String)
  /-- An integer. -/
  | literal (v : Int64)
  deriving DecidableEq, Repr, Inhabited

/-- An operand. -/
structure Operand where
  /-- Where it stands. -/
  pos : Position
  /-- What it refers to. -/
  form : OperandForm
  deriving DecidableEq, Repr, Inhabited

/-- The label of a block to jump to. -/
structure Target where
  /-- Where it stands. -/
  pos : Position
  /-- The label. -/
  name : String
  deriving DecidableEq, Repr, Inhabited

/-- An instruction. -/
structure InstrSyntax where
  /-- Where it starts. -/
  pos : Position
  /-- What it does. -/
  op : Opcode
  /-- The name of its result, empty if it has none. -/
  name : String := ""
  /-- The type of its result. -/
  ty : Ty := .void
  /-- The type of the storage or of the operands. -/
  elem : Ty := .void
  /-- The function it calls. -/
  callee : String := ""
  /-- The operands. -/
  args : List Operand := []
  /-- The blocks it jumps to. -/
  targets : List Target := []
  deriving DecidableEq, Repr, Inhabited

/-- A block. -/
structure BlockSyntax where
  /-- Where its label stands. -/
  pos : Position
  /-- Its label. -/
  name : String
  /-- Its instructions. -/
  instrs : List InstrSyntax := []
  deriving DecidableEq, Repr, Inhabited

/-- A parameter. -/
structure ParamSyntax where
  /-- Where it stands. -/
  pos : Position
  /-- Its name. -/
  name : String
  /-- Its type. -/
  ty : Ty
  deriving DecidableEq, Repr, Inhabited

/-- A function. -/
structure FuncSyntax where
  /-- Where it starts. -/
  pos : Position
  /-- Its name. -/
  name : String
  /-- The type of its result. -/
  ret : Ty := .void
  /-- Its parameters. -/
  params : List ParamSyntax := []
  /-- Its blocks. -/
  blocks : List BlockSyntax := []
  deriving DecidableEq, Repr, Inhabited

/-- A global variable. -/
structure GlobalSyntax where
  /-- Its name. -/
  name : String
  /-- The type of what it stores. -/
  elem : Ty
  deriving DecidableEq, Repr, Inhabited

/-- A program. -/
structure ProgramSyntax where
  /-- Its global variables, whose names are distinct. -/
  globals : List GlobalSyntax := []
  /-- Its functions. -/
  funcs : List FuncSyntax := []
  deriving DecidableEq, Repr, Inhabited

/-- The type of an integer that stands as operand `k` of an instruction. -/
def InstrSyntax.literalType (i : InstrSyntax) (k : Nat) : Ty :=
  match i.op with
  | .cmp | .ret => i.elem
  | .load => .ptr
  | .call => .i64
  | .condbr => .i1
  | .store => if k = 0 then i.elem else .ptr
  | _ => i.ty

end Midend.Source
