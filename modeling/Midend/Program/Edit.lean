import Midend.Fault
import Midend.Program.Basic

/-!
# Editing programs

The operations that build and change a program.  Those that cannot go wrong are functions on
`Program`; those that can are `Edit` actions, which keep what was done before a fault.  All of
them keep the use-lists of values in step with the operand slots.

## Main definitions

* `Program.addGlobal`, `Program.addFunc`, `Program.addParam`, `Program.addBlock`,
  `Program.addConst`: new parts of a program.
* `Program.replaceOperand`, `Program.dropOperands`, `Program.assignOperands`: operand slots
  together with the use-lists.
* `Program.linkLast`, `Program.linkBefore`, `Program.unlink`: the links between the instructions
  of a block.
* `Edit`: actions that may fail.
* `newInstr`, `append`, `insertBefore`: new instructions and their places.
* `setOperand`, `setOperands`, `replaceAllUses`, `erase`: changing what is there.
* `foldConst`: arithmetic on constants.
-/

namespace Midend

namespace Program

/-! ### New parts -/

/-- An empty program. -/
def empty (name : String) : Program := { name := name }

/-- Adds a global variable. -/
def addGlobal (p : Program) (name : String) (elem : Ty) : GlobalId × Program :=
  (p.globals.size, { p with globals := p.globals.push ⟨name, elem⟩ })

/-- Adds a function without parameters and blocks. -/
def addFunc (p : Program) (name : String) (ret : Ty) : FuncId × Program :=
  (p.funcs.size, { p with funcs := p.funcs.push { name := name, ret := ret } })

/-- Changes a function. -/
def modifyFunc (p : Program) (f : FuncId) (g : Func → Func) : Program :=
  { p with funcs := p.funcs.modify f g }

/-- Changes a block. -/
def modifyBlock (p : Program) (b : BlockRef) (g : Block → Block) : Program :=
  p.modifyFunc b.func fun f => { f with blocks := f.blocks.modify b.index g }

/-- Changes an instruction. -/
def modifyInstr (p : Program) (i : InstrId) (g : Instr → Instr) : Program :=
  { p with instrs := p.instrs.modify i g }

/-- Adds a parameter behind the parameters of a function. -/
def addParam (p : Program) (f : FuncId) (name : String) (ty : Ty) : ParamId × Program :=
  (p.params.size,
    { p with params := p.params.push ⟨name, ty⟩ }.modifyFunc f
      fun fn => { fn with params := fn.params ++ [p.params.size] })

/-- Adds an empty block behind the blocks of a function. -/
def addBlock (p : Program) (f : FuncId) (name : String) : BlockRef × Program :=
  (⟨f, (p.func f).blocks.size⟩,
    p.modifyFunc f fun fn =>
      { fn with blocks := fn.blocks.push { id := fn.blocks.size, name := name } })

/-- Adds a constant; its value is cut down to the width of its type. -/
def addConst (p : Program) (ty : Ty) (v : Int64) : ConstId × Program :=
  (p.consts.size, { p with consts := p.consts.push (.ofValue ty v) })

/-- Adds an instruction that is in no block and has no operands yet. -/
def addInstr (p : Program) (i : Instr) : InstrId × Program :=
  (p.instrs.size, { p with instrs := p.instrs.push i })

/-! ### Operand slots -/

/-- Records that a slot holds a value. -/
def addUse (p : Program) (v : Value) (slot : Use) : Program :=
  { p with uses := p.uses.add v slot }

/-- Records that a slot no longer holds a value. -/
def removeUse (p : Program) (v : Value) (slot : Use) : Program :=
  { p with uses := p.uses.remove v slot }

/-- Writes an operand slot without touching any use-list. -/
def writeSlot (p : Program) (slot : Use) (v : Option Value) : Program :=
  p.modifyInstr slot.user fun i => { i with operands := i.operands.set slot.index v }

/-- What an operand slot holds. -/
def readSlot (p : Program) (slot : Use) : Option Value :=
  ((p.instr slot.user).operands[slot.index]?).join

/-- Moves an operand slot from the value it holds to another one. -/
def replaceOperand (p : Program) (slot : Use) (v : Value) : Program :=
  let p :=
    match p.readSlot slot with
    | some old => p.removeUse old slot
    | none => p
  (p.writeSlot slot (some v)).addUse v slot

/-- Records the slots of an instruction from the index `k` on as uses of what they hold. -/
def registerFrom (p : Program) (i : InstrId) (k : Nat) : List (Option Value) → Program
  | [] => p
  | none :: vs => p.registerFrom i (k + 1) vs
  | some v :: vs => (p.addUse v ⟨i, k⟩).registerFrom i (k + 1) vs

/-- Takes the slots of an instruction from the index `k` on out of the use-lists of what they
hold. -/
def unregisterFrom (p : Program) (i : InstrId) (k : Nat) : List (Option Value) → Program
  | [] => p
  | none :: vs => p.unregisterFrom i (k + 1) vs
  | some v :: vs => (p.removeUse v ⟨i, k⟩).unregisterFrom i (k + 1) vs

/-- Takes all operands away from an instruction. -/
def dropOperands (p : Program) (i : InstrId) : Program :=
  (p.unregisterFrom i 0 (p.instr i).operands).modifyInstr i fun x => { x with operands := [] }

/-- Gives operands to an instruction that has none. -/
def assignOperands (p : Program) (i : InstrId) (vs : List (Option Value)) : Program :=
  (p.modifyInstr i fun x => { x with operands := vs }).registerFrom i 0 vs

/-! ### Links -/

/-- Changes the links of an instruction. -/
def modifyLinks (p : Program) (i : InstrId) (g : Links → Links) : Program :=
  { p with links := p.links.modify i g }

/-- Lets the way on from an instruction, or into the block if there is none, lead to `next`. -/
def leadOn (p : Program) (b : BlockRef) (next : Option InstrId) : Option InstrId → Program
  | some i => p.modifyLinks i fun l => { l with next := next }
  | none => p.modifyBlock b fun blk => { blk with head := next }

/-- Lets the way back from an instruction, or from the end of the block if there is none, lead to
`prev`. -/
def leadBack (p : Program) (b : BlockRef) (prev : Option InstrId) : Option InstrId → Program
  | some i => p.modifyLinks i fun l => { l with prev := prev }
  | none => p.modifyBlock b fun blk => { blk with tail := prev }

/-- Links an instruction to the end of a block. -/
def linkLast (p : Program) (b : BlockRef) (i : InstrId) : Program :=
  let last := (p.block b).tail
  ((p.modifyLinks i fun l => { l with prev := last }).leadOn b (some i) last).modifyBlock b
    fun blk => { blk with tail := some i, size := blk.size + 1 }

/-- Links an instruction to `pos`, which it comes to stand before. -/
def linkBefore (p : Program) (b : BlockRef) (i pos : InstrId) : Program :=
  let prev := p.prev? pos
  (((p.modifyLinks i fun _ => { prev := prev, next := some pos }).leadOn b (some i) prev).modifyLinks
    pos fun l => { l with prev := some i }).modifyBlock b fun blk => { blk with size := blk.size + 1 }

/-- Links the neighbours of an instruction to each other.  Its own links stay. -/
def unlink (p : Program) (b : BlockRef) (i : InstrId) : Program :=
  let prev := p.prev? i
  let next := p.next? i
  ((p.leadOn b next prev).leadBack b prev next).modifyBlock b
    fun blk => { blk with size := blk.size - 1 }

/-! ### Places -/

/-- Lists an instruction that is in no block in a block, whose list `place` says how to extend.  The
instruction gets the next number of the function. -/
def attach (p : Program) (b : BlockRef) (i : InstrId)
    (place : List InstrId → List InstrId) : Program :=
  let id := (p.func b.func).lastId + 1
  ((p.modifyInstr i fun x => { x with id := id, place := .inBlock b }).modifyFunc b.func
    fun f => { f with lastId := id }).modifyBlock b
    fun blk => { blk with instrs := place blk.instrs }

/-- Puts an instruction at the end of a block. -/
def appendTo (p : Program) (b : BlockRef) (i : InstrId) : Program :=
  (p.attach b i (· ++ [i])).linkLast b i

/-- Puts an instruction right before another one of a block. -/
def insertInto (p : Program) (b : BlockRef) (i pos : InstrId) : Program :=
  (p.attach b i (insertBeforeIn i pos)).linkBefore b i pos

/-- Erases an instruction: it gives up its operands and leaves its block. -/
def detach (p : Program) (i : InstrId) : Program :=
  let q := (p.dropOperands i).modifyInstr i fun x => { x with place := .erased }
  match (p.instr i).place.block? with
  | some b => (q.modifyBlock b fun blk => { blk with instrs := blk.instrs.erase i }).unlink b i
  | none => q

end Program

/-! ### Actions that may fail -/

/-- An action on a program. -/
abbrev Edit := Act Program

/-- The operand slot at an index, which may be out of range. -/
def operandAt (i : InstrId) (index : Int) : Edit (Option Value) := do
  let ops := ((← get).instr i).operands
  if index < 0 then throw .absent else Act.demand ops[index.toNat]?

/-- Gives an instruction a new list of operands.  At the first missing operand the action
stops, with the operands before it in place. -/
def setOperands (i : InstrId) (vs : List (Option Value)) : Edit Unit := do
  let present := vs.takeWhile Option.isSome
  let missing := vs.length - present.length
  modify fun p => (p.dropOperands i).assignOperands i (present ++ List.replicate missing none)
  if missing ≠ 0 then throw (.missingOperand present.length ((← get).instr i).op)

/-- Makes an instruction that is in no block. -/
def newInstr (i : Instr) (operands : List (Option Value)) : Edit InstrId := do
  let id ← modifyGet (·.addInstr i)
  setOperands id operands
  pure id

/-- Replaces one operand of an instruction. -/
def setOperand (i : InstrId) (index : Int) (v : Option Value) : Edit Unit := do
  match v with
  | none => throw (.missingOperand index ((← get).instr i).op)
  | some v =>
    discard (operandAt i index)
    modify (·.replaceOperand ⟨i, index.toNat⟩ v)

/-- Checks that an instruction may still be put into a block. -/
def checkDetached (i : InstrId) : Edit Unit := do
  let x := (← get).instr i
  if x.place ≠ .detached then throw (.alreadyPlaced x.label)

/-- Adds an instruction at the end of a block, which must be there. -/
def append (b : BlockRef) (i : InstrId) : Edit Unit := do
  checkDetached i
  if ¬ (← get).HasBlock b then throw .absent
  modify (·.appendTo b i)

/-- Inserts an instruction right before another one, which must be in the given block. -/
def insertBefore (b : BlockRef) (i : Option InstrId) (pos : Option InstrId) : Edit Unit := do
  let pos ← Act.demand pos
  let p ← get
  if (p.instr pos).place ≠ .inBlock b then throw (.foreignPosition (p.block b).name)
  let i ← Act.demand i
  checkDetached i
  modify (·.insertInto b i pos)

/-- Moves the given slots to a new value.  A missing value takes the first slot and then
fails. -/
def moveUses (new : Option Value) : List Use → Edit Unit
  | [] => pure ()
  | slot :: slots => do
    modify (·.writeSlot slot new)
    let v ← Act.demand new
    modify (·.addUse v slot)
    moveUses new slots

/-- Lets every slot that holds `old` hold `new` instead.  The slots keep their order, behind
the slots that held `new` before. -/
def replaceAllUses (old new : Option Value) : Edit Unit := do
  if old = new then pure ()
  else
    let v ← Act.demand old
    let slots := (← get).usesOf v
    modify fun p => { p with uses := p.uses.set v [] }
    moveUses new slots

/-- What became of an attempt to erase an instruction. -/
inductive EraseOutcome where
  /-- The instruction is erased. -/
  | erased
  /-- The instruction is still used, so nothing was done. -/
  | inUse (instr : String) (uses : Nat)
  deriving DecidableEq, Repr, Inhabited

/-- Erases an instruction unless it is still used.  An erased instruction stays as it is. -/
def erase (i : InstrId) : Edit EraseOutcome := do
  let p ← get
  if (p.instr i).isErased then pure .erased
  else if p.usesOf (.instr i) ≠ [] then
    pure (.inUse (p.instr i).label (p.usesOf (.instr i)).length)
  else
    set (p.detach i)
    pure .erased

/-- Erases an instruction that the caller knows to be unused. -/
def forceErase (i : InstrId) : Edit Unit := do
  match ← erase i with
  | .erased => pure ()
  | .inUse label uses => throw (.forcedErase label uses)

/-- The stored value of a store. -/
def storeValue (i : InstrId) : Edit (Option Value) := do
  let x := (← get).instr i
  if x.op = .store then operandAt i 0 else throw (.noStoreValue x.op)

/-- The address of a load or a store. -/
def pointer (i : InstrId) : Edit (Option Value) := do
  let x := (← get).instr i
  match x.op with
  | .load => operandAt i 0
  | .store => operandAt i 1
  | op => throw (.noPointer op)

/-! ### Arithmetic on constants -/

/-- The literal that an operation on two literals yields, with the type of the first; `none` if
the operation is not evaluated ahead of time. -/
def foldConst (op : Opcode) (x y : Const) : Option Const :=
  match op with
  | .add => some (.ofValue x.ty (x.value + y.value))
  | .sub => some (.ofValue x.ty (x.value - y.value))
  | .mul => some (.ofValue x.ty (x.value * y.value))
  | _ => none

/-- The complaint about an operation that is not evaluated. -/
def unsupportedFold (op : Opcode) : String := s!"fold {op.text}: unsupported opcode"

end Midend
