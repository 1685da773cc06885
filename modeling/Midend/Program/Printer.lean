import Midend.Fault
import Midend.Program.Basic

/-!
# The text of programs

Every part of a program has a textual form, which the reader of program text accepts again.
Printing fails at a slot that holds no value and at a result type without a name.

## Main definitions

* `Program.instrText`, `Program.blockText`, `Program.funcText`: the parts.
* `Program.text`: the whole program.
-/

namespace Midend.Program

/-- The operands of an instruction, separated by commas. -/
def operandsText (p : Program) (i : Instr) : Except Fault String := do
  let names ← i.operands.mapM fun v =>
    match v with
    | some v => .ok (p.label v)
    | none => .error .absent
  pure (", ".intercalate names)

/-- The labels of the blocks an instruction jumps to, separated by commas. -/
def targetsText (p : Program) (i : Instr) : String :=
  ", ".intercalate (i.targets.map fun b => (p.block b).name)

/-- The type of the first operand of an instruction. -/
def firstOperandType (p : Program) (i : Instr) : Ty :=
  ((i.operands.head?.join).map p.typeOf).getD .void

/-- The text of an instruction. -/
def instrText (p : Program) (id : InstrId) : Except Fault String := do
  let i := p.instr id
  let ops ← p.operandsText i
  let op := i.op.text
  let result := if i.ty.isVoid then "" else s!"{i.label} = "
  match i.op with
  | .alloca => pure s!"{result}{op} {i.elem.text}"
  | .load => pure s!"{result}{op} {i.ty.text}, {ops}"
  | .store => pure s!"{op} {i.elem.text} {ops}"
  | .cmp => pure s!"{result}{op} {i.elem.text} {ops}"
  | .call => pure s!"{result}{op} {i.ty.text} @{i.callee}({ops})"
  | .br => pure s!"{op} {p.targetsText i}"
  | .condbr => pure s!"{op} {ops}, {p.targetsText i}"
  | .ret =>
    if i.operands.isEmpty then pure "ret void"
    else pure s!"ret {(p.firstOperandType i).text} {ops}"
  | _ => pure s!"{result}{op} {i.ty.text} {ops}"

/-- The text of a block: its label, and its instructions on lines of their own. -/
def blockText (p : Program) (b : Block) : Except Fault String := do
  let lines ← b.instrs.mapM p.instrText
  pure ("\n".intercalate (s!"{b.name}:" :: lines.map ("    " ++ ·)))

/-- The text of a function. -/
def funcText (p : Program) (f : Func) : Except Fault String := do
  let params := ", ".intercalate (f.params.map fun a =>
    s!"{p.label (.param a)}: {(p.params.get a).ty.text}")
  let ret ← if f.ret.isVoid then pure "" else do pure s!" : {← f.ret.name}"
  let blocks ← f.blocks.toList.mapM p.blockText
  let head := s!"func @{f.name}({params}){ret} \x7b"
  pure ("\n".intercalate (head :: blocks ++ ["\x7d"]))

/-- The text of the global variables, one to a line. -/
def globalsText (p : Program) : String :=
  "\n".intercalate (p.globals.cells.toList.map fun g => s!"global @{g.name} : {g.elem.text}")

/-- The text of a program: the global variables, then the functions, with blank lines in
between. -/
def text (p : Program) : Except Fault String := do
  let funcs ← p.funcs.toList.mapM p.funcText
  let parts := if p.globals.size = 0 then funcs else p.globalsText :: funcs
  pure ("\n\n".intercalate parts ++ "\n")

end Midend.Program
