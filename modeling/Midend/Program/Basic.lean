import Midend.Opcode
import Midend.Program.Value
import Midend.Ty

/-!
# Programs

A program is a list of functions and global variables.  A function is a list of basic blocks, a
block a list of instructions.  Instructions, constants and parameters live in tables of the
program and are referred to by number; blocks are referred to by their function and their
position in it.

An instruction is in one of three places.  It starts detached, is put into a block at most
once, and stays erased once it is erased.

The instructions of a block are linked to each other.  A block knows the first and the last of
them and how many there are, an instruction knows its neighbours.  An erased instruction keeps the
neighbours it had, so that somebody who stands on it can still move on.

## Main definitions

* `Instr`, `Block`, `Func`, `Program`: the parts of a program.
* `Place`: where an instruction is.
* `Links`: the neighbours of an instruction.
* `Program.successors`, `Program.predecessors`: the control flow between blocks.
* `Program.next?`, `Program.prev?`: the neighbours that an instruction knows.
* `Program.chain`: the instructions that the links of a block lead to.
* `Program.label`, `Program.typeOf`: the name and the type of a value.
-/

namespace Midend

/-- A block, by its function and its position there. -/
structure BlockRef where
  /-- The function. -/
  func : FuncId
  /-- The position in the function. -/
  index : Nat
  deriving DecidableEq, Repr, Inhabited

/-- Where an instruction is. -/
inductive Place where
  /-- In no block yet. -/
  | detached
  /-- In a block. -/
  | inBlock (block : BlockRef)
  /-- Erased. -/
  | erased
  deriving DecidableEq, Repr, Inhabited

/-- The block of a place. -/
def Place.block? : Place → Option BlockRef
  | .inBlock b => some b
  | _ => none

/-- Is the place that of an erased instruction? -/
def Place.isErased : Place → Bool
  | .erased => true
  | _ => false

/-- An instruction. -/
structure Instr where
  /-- Its number within the function; 0 until it is put into a block. -/
  id : Nat := 0
  /-- What it does. -/
  op : Opcode := .invalid
  /-- The name of its result, empty if it has none. -/
  name : String := ""
  /-- The type of its result. -/
  ty : Ty := .void
  /-- The type of the storage or of the operands, where the operation needs one. -/
  elem : Ty := .void
  /-- The function it calls. -/
  callee : String := ""
  /-- The blocks it jumps to. -/
  targets : List BlockRef := []
  /-- The operand slots. -/
  operands : List (Option Value) := []
  /-- Where it is. -/
  place : Place := .detached
  deriving DecidableEq, Repr, Inhabited

namespace Instr

/-- Has it been erased? -/
def isErased (i : Instr) : Bool := i.place.isErased

/-- The name of its result in program text. -/
def label (i : Instr) : String :=
  if i.name = "" then s!"%{i.id}" else s!"%{i.name}"

/-- Does it compute a value and do nothing else? -/
def isPure (i : Instr) : Bool := !i.op.hasSideEffects && !i.ty.isVoid

/-- The instruction as an operand holds it, if the slot holds an instruction. -/
def operandInstrs (i : Instr) : List InstrId :=
  i.operands.filterMap fun v => v.bind Value.instr?

end Instr

/-- The neighbours that an instruction knows. -/
structure Links where
  /-- The one before it. -/
  prev : Option InstrId := none
  /-- The one behind it. -/
  next : Option InstrId := none
  deriving DecidableEq, Repr, Inhabited

/-- An integer literal. -/
structure Const where
  /-- Its type. -/
  ty : Ty := .void
  /-- Its value, within the width of its type. -/
  value : Int64 := 0
  deriving DecidableEq, Repr, Inhabited

/-- The literal of a type closest to a value: the value cut down to the width of the type. -/
def Const.ofValue (ty : Ty) (v : Int64) : Const := ⟨ty, ty.wrap v⟩

/-- A global variable. -/
structure Global where
  /-- Its name. -/
  name : String := ""
  /-- The type of what it stores. -/
  elem : Ty := .void
  deriving DecidableEq, Repr, Inhabited

/-- A parameter. -/
structure Param where
  /-- Its name. -/
  name : String := ""
  /-- Its type. -/
  ty : Ty := .void
  deriving DecidableEq, Repr, Inhabited

/-- A basic block: instructions that are executed in order. -/
structure Block where
  /-- Its number within the function. -/
  id : Nat := 0
  /-- Its label. -/
  name : String := ""
  /-- Its instructions, in the order in which they are linked. -/
  instrs : List InstrId := []
  /-- The first one. -/
  head : Option InstrId := none
  /-- The last one. -/
  tail : Option InstrId := none
  /-- How many there are. -/
  size : Nat := 0
  deriving DecidableEq, Repr, Inhabited

/-- A function.  Execution starts with its first block. -/
structure Func where
  /-- Its name. -/
  name : String := ""
  /-- The type of its result. -/
  ret : Ty := .void
  /-- Its parameters. -/
  params : List ParamId := []
  /-- Its blocks. -/
  blocks : Array Block := #[]
  /-- The last number that was given to one of its instructions. -/
  lastId : Nat := 0
  deriving DecidableEq, Repr, Inhabited

/-- A program. -/
structure Program where
  /-- Its name, used in messages. -/
  name : String := ""
  /-- Its functions. -/
  funcs : Array Func := #[]
  /-- Its global variables. -/
  globals : Table Global := {}
  /-- The parameters of all functions. -/
  params : Table Param := {}
  /-- All constants ever made. -/
  consts : Table Const := {}
  /-- All instructions ever made. -/
  instrs : Table Instr := {}
  /-- Their neighbours. -/
  links : Table Links := {}
  /-- The use-list of every value. -/
  uses : UseLists := {}
  deriving Inhabited

/-- What is met from a start on, in at most `n` steps, where `step` leads from one to the next. -/
def trail {α : Type} (step : α → Option α) : Nat → Option α → List α
  | 0, _ => []
  | _ + 1, none => []
  | n + 1, some a => a :: trail step n (step a)

/-- Inserts `x` into a list, right before the first occurrence of `pos`. -/
def insertBeforeIn {α : Type} [DecidableEq α] (x pos : α) : List α → List α
  | [] => []
  | y :: ys => if y = pos then x :: y :: ys else y :: insertBeforeIn x pos ys

/-- The sum of a size over a list. -/
def sumOf {α : Type} (size : α → Nat) : List α → Nat
  | [] => 0
  | a :: rest => size a + sumOf size rest

namespace Program

/-- A function of the program. -/
def func (p : Program) (f : FuncId) : Func := p.funcs.getD f default

/-- A block of the program. -/
def block (p : Program) (b : BlockRef) : Block := (p.func b.func).blocks.getD b.index default

/-- The block is there. -/
def HasBlock (p : Program) (b : BlockRef) : Prop := b.index < (p.func b.func).blocks.size

instance (p : Program) (b : BlockRef) : Decidable (p.HasBlock b) :=
  inferInstanceAs (Decidable (b.index < (p.func b.func).blocks.size))

/-- An instruction of the program. -/
def instr (p : Program) (i : InstrId) : Instr := p.instrs.get i

/-- The uses of a value, oldest first. -/
def usesOf (p : Program) (v : Value) : List Use := p.uses.get v

/-- The instructions that use a value, each once, in the order of their first use. -/
def usersOf (p : Program) (v : Value) : List InstrId := ((p.usesOf v).map Use.user).eraseDups

/-- The type of a value. -/
def typeOf (p : Program) : Value → Ty
  | .const c => (p.consts.get c).ty
  | .global _ => .ptr
  | .param a => (p.params.get a).ty
  | .instr i => (p.instr i).ty

/-- The name of a value in program text. -/
def label (p : Program) : Value → String
  | .const c => toString (p.consts.get c).value.toInt
  | .global g => s!"@{(p.globals.get g).name}"
  | .param a => s!"%{(p.params.get a).name}"
  | .instr i => (p.instr i).label

/-- The blocks of a function. -/
def blockRefs (p : Program) (f : FuncId) : List BlockRef :=
  (List.range (p.func f).blocks.size).map (⟨f, ·⟩)

/-- The blocks of all functions. -/
def allBlockRefs (p : Program) : List BlockRef :=
  (List.range p.funcs.size).flatMap p.blockRefs

/-- The instructions of a function, in block order. -/
def funcInstrs (p : Program) (f : FuncId) : List InstrId :=
  (p.func f).blocks.toList.flatMap Block.instrs

/-- The last instruction of a block, if it is a terminator. -/
def terminator? (p : Program) (b : BlockRef) : Option InstrId :=
  (p.block b).tail.filter fun i => (p.instr i).op.isTerminator

/-- The distinct blocks the terminator of a block jumps to, in its order. -/
def successors (p : Program) (b : BlockRef) : List BlockRef :=
  match p.terminator? b with
  | some t => (p.instr t).targets.eraseDups
  | none => []

/-- The blocks of the same function that jump to a block, in function order. -/
def predecessors (p : Program) (b : BlockRef) : List BlockRef :=
  (p.blockRefs b.func).filter fun c => (p.successors c).contains b

/-- The instruction behind an instruction, or behind the place it was erased from. -/
def next? (p : Program) (i : InstrId) : Option InstrId := (p.links.get i).next

/-- The instruction before an instruction, or before the place it was erased from. -/
def prev? (p : Program) (i : InstrId) : Option InstrId := (p.links.get i).prev

/-- The instructions of a block, as they are linked. -/
def chain (p : Program) (b : BlockRef) : List InstrId :=
  trail p.next? p.instrs.size (p.block b).head

/-- The first function with a given name. -/
def findFunc? (p : Program) (name : String) : Option FuncId :=
  p.funcs.findIdx? fun f => f.name = name

/-- The first global variable with a given name. -/
def findGlobal? (p : Program) (name : String) : Option GlobalId :=
  p.globals.cells.findIdx? fun g => g.name = name

/-- The first block of a function with a given label. -/
def findBlock? (p : Program) (f : FuncId) (name : String) : Option BlockRef :=
  ((p.func f).blocks.findIdx? fun b => b.name = name).map (⟨f, ·⟩)

/-- The number of instructions in the blocks of a function. -/
def instrCount (p : Program) (f : FuncId) : Nat :=
  sumOf Block.size (p.func f).blocks.toList

end Program

/-- The size of a program. -/
structure Size where
  /-- How many functions. -/
  functions : Nat
  /-- How many global variables. -/
  globals : Nat
  /-- How many blocks, over all functions. -/
  blocks : Nat
  /-- How many instructions, over all blocks. -/
  instructions : Nat
  deriving DecidableEq, Repr, Inhabited

/-- The size of a program. -/
def Program.size (p : Program) : Size where
  functions := p.funcs.size
  globals := p.globals.size
  blocks := sumOf (fun f => f.blocks.size) p.funcs.toList
  instructions := sumOf p.instrCount (List.range p.funcs.size)

end Midend
