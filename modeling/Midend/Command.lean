import Midend.Pass.Optimize
import Midend.Program.Builder

/-!
# Commands

Everything that can be done to a program, as data.  A command names values, instructions and
blocks of the program it is run on; a missing one is `none`.  Running a command yields a reply, or
a fault that keeps what was done before it.

## Main definitions

* `Command`: the commands.
* `Workbench`: a program together with the point where instructions are emitted.
* `Command.run`: carries out a command.
* `Workbench.runAll`: carries out commands one after the other, whether they fail or not.
-/

namespace Midend

/-- What can be done to a program. -/
inductive Command where
  /-- Adds a global variable. -/
  | addGlobal (name : String) (elem : Ty)
  /-- Adds a function. -/
  | addFunc (name : String) (ret : Ty)
  /-- Adds a parameter to a function. -/
  | addParam (f : FuncId) (name : String) (ty : Ty)
  /-- Adds a block to a function. -/
  | addBlock (f : FuncId) (name : String)
  /-- Adds a constant. -/
  | addConst (ty : Ty) (v : Int64)
  /-- Makes an instruction that is in no block, from all of `i` but its number, its operands and its
  place. -/
  | newInstr (i : Instr) (operands : List (Option Value))
  /-- Puts an instruction at the end of a block. -/
  | append (b : BlockRef) (i : Option InstrId)
  /-- Puts an instruction before another one. -/
  | insertBefore (b : BlockRef) (i pos : Option InstrId)
  /-- Chooses the block at whose end instructions are emitted. -/
  | moveTo (b : BlockRef)
  /-- Emits arithmetic. -/
  | binary (op : Opcode) (name : String) (x y : Option Value)
  /-- Emits a comparison. -/
  | cmp (name : String) (x y : Option Value)
  /-- Emits a reservation of storage. -/
  | alloca (name : String) (elem : Ty)
  /-- Emits a load. -/
  | load (name : String) (elem : Ty) (ptr : Option Value)
  /-- Emits a store. -/
  | store (v ptr : Option Value)
  /-- Emits a call. -/
  | call (name : String) (ret : Ty) (callee : String) (args : List (Option Value))
  /-- Emits a jump. -/
  | br (target : BlockRef)
  /-- Emits a jump to one of two blocks. -/
  | condBr (cond : Option Value) (yes no : BlockRef)
  /-- Emits a return. -/
  | ret (v : Option Value)
  /-- Replaces one operand. -/
  | setOperand (i : Option InstrId) (index : Int) (v : Option Value)
  /-- Replaces all operands. -/
  | setOperands (i : Option InstrId) (vs : List (Option Value))
  /-- Moves all uses of a value to another one. -/
  | replaceAllUses (old new : Option Value)
  /-- Erases an instruction unless it is used. -/
  | erase (i : Option InstrId)
  /-- Erases an instruction that must not be used. -/
  | forceErase (i : Option InstrId)
  /-- Erases an instruction if it is dead. -/
  | dce (i : Option InstrId)
  /-- Folds an instruction if it is constant. -/
  | constFold (i : Option InstrId)
  /-- Merges the operands of a value if they look alike. -/
  | cse (v : Option Value)
  /-- Walks through all functions. -/
  | walk
  /-- Walks through a function. -/
  | peephole (f : FuncId)
  /-- Propagates constants through a function. -/
  | constProp (f : FuncId)
  /-- Sweeps a function. -/
  | sweep (f : FuncId)
  /-- Runs all passes. -/
  | optimize (o : Options)
  deriving Inhabited

/-- What a command yields. -/
inductive Reply where
  /-- Nothing. -/
  | done
  /-- A value. -/
  | value (v : Value)
  /-- A block. -/
  | block (b : BlockRef)
  /-- A truth value. -/
  | flag (b : Bool)
  /-- What became of an instruction that was to be erased. -/
  | erasing (outcome : EraseOutcome)
  /-- Whether a pass changed anything, and what it recorded. -/
  | pass (changed : Bool) (session : Session)
  /-- The result of optimizing, which may be a fault, and what was recorded. -/
  | optimized (result : Except Fault (Except VerifyError Unit)) (session : Session)
  deriving Inhabited

/-- A program that is being worked on. -/
structure Workbench where
  /-- The program. -/
  program : Program
  /-- Where instructions are emitted. -/
  insertAt : InsertionPoint := none
  deriving Inhabited

namespace Workbench

/-- Edits the program. -/
def edit {α : Type} (e : Edit α) : Act Workbench α := fun w =>
  let (r, p) := e w.program
  (r, { w with program := p })

/-- Edits the program with an action that yields an instruction. -/
def emitting (e : InsertionPoint → Edit InstrId) : Act Workbench Reply := do
  return .value (.instr (← edit (e (← get).insertAt)))

/-- Runs a pass in a session of its own. -/
def runPass {α : Type} (pass : Pass α) : Act Workbench (α × Session) := fun w =>
  let (r, s) := pass { program := w.program }
  (r.map (·, s), { w with program := s.program })

end Workbench

open Workbench (edit emitting)

/-- Carries out a command. -/
def Command.run : Command → Act Workbench Reply
  | .addGlobal name elem => return .value (.global (← edit (modifyGet (·.addGlobal name elem))))
  | .addFunc name ty => do
    discard (edit (modifyGet (·.addFunc name ty)))
    return .done
  | .addParam f name ty => return .value (.param (← edit (modifyGet (·.addParam f name ty))))
  | .addBlock f name => return .block (← edit (modifyGet (·.addBlock f name)))
  | .addConst ty v => return .value (.const (← edit (modifyGet (·.addConst ty v))))
  | .newInstr i operands =>
    return .value (.instr (← edit (Midend.newInstr
      { i with id := 0, operands := [], place := .detached } operands)))
  | .append b i => do
    edit (do Midend.append b (← Act.demand i))
    return .done
  | .insertBefore b i pos => do
    edit (Midend.insertBefore b i pos)
    return .done
  | .moveTo b => do
    modify fun w => { w with insertAt := some b }
    return .done
  | .binary op name x y => emitting (emitBinary · op name x y)
  | .cmp name x y => emitting (emitCmp · name x y)
  | .alloca name elem => emitting (emitAlloca · name elem)
  | .load name elem ptr => emitting (emitLoad · name elem ptr)
  | .store v ptr => emitting (emitStore · v ptr)
  | .call name ty callee args => emitting (emitCall · name ty callee args)
  | .br target => emitting (emitBr · target)
  | .condBr cond yes no => emitting (emitCondBr · cond yes no)
  | .ret v => emitting (emitRet · v)
  | .setOperand i index v => do
    edit (do Midend.setOperand (← Act.demand i) index v)
    return .done
  | .setOperands i vs => do
    edit (do Midend.setOperands (← Act.demand i) vs)
    return .done
  | .replaceAllUses old new => do
    edit (Midend.replaceAllUses old new)
    return .done
  | .erase i => return .erasing (← edit (do Midend.erase (← Act.demand i)))
  | .forceErase i => do
    edit (do Midend.forceErase (← Act.demand i))
    return .done
  | .dce i => return .flag (← edit (do Midend.dce (← Act.demand i)))
  | .constFold i => return .value (← edit (do Midend.constFold (← Act.demand i)))
  | .cse v => return .flag (← edit (Midend.cse v))
  | .walk => return (fun r => .pass r.1 r.2) (← Workbench.runPass Midend.walk)
  | .peephole f => return (fun r => .pass r.1 r.2) (← Workbench.runPass (Midend.peephole f))
  | .constProp f => return (fun r => .pass r.1 r.2) (← Workbench.runPass (Midend.constProp f))
  | .sweep f => return (fun r => .pass r.1 r.2) (← Workbench.runPass (Midend.sweep f))
  | .optimize o => do
    let (result, session) := Midend.optimize o (← get).program
    modify fun w => { w with program := session.program }
    return .optimized result session

/-- Carries out commands one after the other.  A command that fails does not stop the next. -/
def Workbench.runAll (w : Workbench) : List Command → Workbench
  | [] => w
  | c :: rest => (c.run w).2.runAll rest

end Midend
