import Midend.Program.Edit

/-!
# Emitting instructions

The builder appends instructions at the end of a block, the insertion point.  An instruction is
made before the insertion point is looked at, so an attempt to emit behind a terminator leaves
the refused instruction among the users of its operands.

## Main definitions

* `emit`: puts an instruction at the insertion point.
* `emitBinary`, `emitCmp`, `emitAlloca`, `emitLoad`, `emitStore`, `emitCall`, `emitBr`,
  `emitCondBr`, `emitRet`: one action per operation.
-/

namespace Midend

/-- Where instructions are emitted: the end of a block, once one was chosen. -/
abbrev InsertionPoint := Option BlockRef

/-- Puts an instruction at the insertion point. -/
def emit (at? : InsertionPoint) (i : InstrId) : Edit InstrId := do
  let b ← Act.demand at?
  let p ← get
  match p.terminator? b with
  | some t => throw (.terminated (p.block b).name (p.instr t).op)
  | none =>
    append b i
    pure i

/-- The type of an operand. -/
def operandType (v : Option Value) : Edit Ty := do
  let v ← Act.demand v
  pure ((← get).typeOf v)

/-- Emits arithmetic; the result has the type of the first operand. -/
def emitBinary (at? : InsertionPoint) (op : Opcode) (name : String) (x y : Option Value) :
    Edit InstrId := do
  if !op.isBinary || op = .cmp then throw (.notArithmetic op)
  let ty ← operandType x
  emit at? (← newInstr { op := op, ty := ty, name := name } [x, y])

/-- Emits a comparison. -/
def emitCmp (at? : InsertionPoint) (name : String) (x y : Option Value) : Edit InstrId := do
  let i ← newInstr { op := .cmp, ty := .i1, name := name } [x, y]
  let ty ← operandType x
  modify (·.modifyInstr i fun c => { c with elem := ty })
  emit at? i

/-- Emits a reservation of storage. -/
def emitAlloca (at? : InsertionPoint) (name : String) (elem : Ty) : Edit InstrId := do
  emit at? (← newInstr { op := .alloca, ty := .ptr, name := name, elem := elem } [])

/-- Emits a load. -/
def emitLoad (at? : InsertionPoint) (name : String) (elem : Ty) (ptr : Option Value) :
    Edit InstrId := do
  emit at? (← newInstr { op := .load, ty := elem, name := name } [ptr])

/-- Emits a store. -/
def emitStore (at? : InsertionPoint) (v ptr : Option Value) : Edit InstrId := do
  let i ← newInstr { op := .store } [v, ptr]
  let ty ← operandType v
  modify (·.modifyInstr i fun s => { s with elem := ty })
  emit at? i

/-- Emits a call.  A call without a result has no name. -/
def emitCall (at? : InsertionPoint) (name : String) (ret : Ty) (callee : String)
    (args : List (Option Value)) : Edit InstrId := do
  let name := if ret.isVoid then "" else name
  emit at? (← newInstr { op := .call, ty := ret, name := name, callee := callee } args)

/-- Emits a jump. -/
def emitBr (at? : InsertionPoint) (target : BlockRef) : Edit InstrId := do
  emit at? (← newInstr { op := .br, targets := [target] } [])

/-- Emits a jump to one of two blocks. -/
def emitCondBr (at? : InsertionPoint) (cond : Option Value) (yes no : BlockRef) :
    Edit InstrId := do
  emit at? (← newInstr { op := .condbr, targets := [yes, no] } [cond])

/-- Emits a return, with a value or without. -/
def emitRet (at? : InsertionPoint) (v : Option Value) : Edit InstrId := do
  emit at? (← newInstr { op := .ret } (v.toList.map some))

end Midend
