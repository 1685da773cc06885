import Midend.Program.Basic

/-!
# Verifying functions

The verifier looks for breaches of the rules every function must keep:

* an instruction in a block knows that it is there, only the last one may be a terminator, and
  the block knows how many there are;
* every operand slot holds a value, and an instruction it holds is in the same function and, in
  the same block, stands before its user;
* the use-list of every value in sight lists exactly the operand slots that hold it.

The instructions of a block are those that its links lead to.

## Main definitions

* `Violation`: a breach of a rule.
* `Program.verifyFunc`: the breaches in one function.
* `Program.verify`: the breaches in a program.
-/

namespace Midend

/-- A breach of a rule. -/
inductive Violation where
  /-- An instruction in a block is not placed there. -/
  | notOwned (block instr : String)
  /-- A terminator stands before the end of its block. -/
  | misplacedTerminator (block : String) (op : Opcode)
  /-- The size that a block is said to have is not the number of its instructions. -/
  | wrongSize (block : String) (size count : Nat)
  /-- A slot holds no value. -/
  | missingOperand (block : String) (index : Nat) (user : String)
  /-- A slot holds an instruction that is not in the function. -/
  | foreignOperand (block user operand : String)
  /-- A slot holds an instruction that stands behind its user. -/
  | usedBeforeDefined (block operand user : String)
  /-- A use-list has a slot that does not hold the value. -/
  | staleUse (value user : String) (index : Nat)
  /-- A use-list lacks a slot that holds the value. -/
  | missingUse (value user : String) (index : Nat)
  /-- A use-list has a slot twice. -/
  | duplicatedUses (value : String)
  deriving DecidableEq, Repr, Inhabited

/-- The wording of a breach. -/
def Violation.message : Violation → String
  | .notOwned b i => s!"{b}: {i} is not owned by this block"
  | .misplacedTerminator b op => s!"{b}: terminator {op.text} is not the last instruction"
  | .wrongSize b size n => s!"{b}: block size is {size}, but has {n} instructions"
  | .missingOperand b k i => s!"{b}: operand {k} of {i} is nil"
  | .foreignOperand b i d => s!"{b}: {i} references {d} which is not in this function"
  | .usedBeforeDefined b d i => s!"{b}: {d} is used by {i} before it is defined"
  | .staleUse v i k => s!"{v}: stale use by {i} at operand {k}"
  | .missingUse v i k => s!"{v}: missing use by {i} at operand {k}"
  | .duplicatedUses v => s!"{v}: use-list contains duplicates"

namespace Program

/-! ### Blocks -/

/-- The breaches of the structure of a block. -/
def blockViolations (p : Program) (b : BlockRef) : List Violation :=
  let blk := p.block b
  ((p.chain b).flatMap fun i =>
    let x := p.instr i
    (if x.place = .inBlock b then [] else [.notOwned blk.name x.label]) ++
    (if x.op.isTerminator && (p.next? i).isSome then [.misplacedTerminator blk.name x.op] else [])) ++
  (if (p.chain b).length = blk.size then []
    else [.wrongSize blk.name blk.size (p.chain b).length])

/-! ### Operands -/

/-- The instructions of the blocks of a function, as they are linked. -/
def chains (p : Program) (f : FuncId) : List InstrId := (p.blockRefs f).flatMap p.chain

/-- The breaches of the operand slot `k` of the instruction `i` in the block `b`. -/
def slotViolations (p : Program) (b : BlockRef) (i : InstrId) (k : Nat) :
    Option Value → List Violation
  | none => [.missingOperand (p.block b).name k (p.instr i).label]
  | some (.instr d) =>
    let blk := p.block b
    if !(p.chains b.func).contains d then
      [.foreignOperand blk.name (p.instr i).label (p.instr d).label]
    else if (p.instr d).place = .inBlock b && (p.chain b).idxOf i ≤ (p.chain b).idxOf d then
      [.usedBeforeDefined blk.name (p.instr d).label (p.instr i).label]
    else []
  | some _ => []

/-- The breaches of the operand slots of a block. -/
def operandViolations (p : Program) (b : BlockRef) : List Violation :=
  (p.chain b).flatMap fun i =>
    (p.instr i).operands.zipIdx.flatMap fun (v, k) => p.slotViolations b i k v

/-! ### Use-lists -/

/-- The operand slots of the instructions of a function, with the values they hold. -/
def heldSlots (p : Program) (f : FuncId) : List (Use × Value) :=
  (p.chains f).flatMap fun i =>
    (p.instr i).operands.zipIdx.filterMap fun (v, k) => v.map fun v => (⟨i, k⟩, v)

/-- The values whose use-lists a function answers for: its instructions and its operands. -/
def valuesInSight (p : Program) (f : FuncId) : List Value :=
  ((p.chains f).map Value.instr ++ (p.heldSlots f).map Prod.snd).eraseDups

/-- Is the instruction in a block of another function? -/
def isElsewhere (p : Program) (f : FuncId) (i : InstrId) : Bool :=
  match (p.instr i).place with
  | .inBlock b => b.func ≠ f
  | _ => false

/-- The breaches of the use-list of a value.  Slots of instructions in other functions are
those functions' affair. -/
def useListViolations (p : Program) (f : FuncId) (v : Value) : List Violation :=
  let held := ((p.heldSlots f).filter fun s => s.2 = v).map Prod.fst
  let listed := (p.usesOf v).filter fun u => !p.isElsewhere f u.user
  ((listed.filter fun u => !held.contains u).map fun u =>
    .staleUse (p.label v) (p.instr u.user).label u.index) ++
  ((held.filter fun u => !listed.contains u).map fun u =>
    .missingUse (p.label v) (p.instr u.user).label u.index) ++
  (if listed.eraseDups.length = listed.length then [] else [.duplicatedUses (p.label v)])

/-! ### Functions and programs -/

/-- The breaches in a function: those of its blocks, then those of its operands, then those of
the use-lists. -/
def verifyFunc (p : Program) (f : FuncId) : List Violation :=
  (p.blockRefs f).flatMap p.blockViolations ++
  (p.blockRefs f).flatMap p.operandViolations ++
  (p.valuesInSight f).flatMap (p.useListViolations f)

/-- The functions with breaches, by name, with their breaches. -/
def verify (p : Program) : List (String × List Violation) :=
  ((List.range p.funcs.size).map fun f => ((p.func f).name, p.verifyFunc f)).filter
    fun r => !r.2.isEmpty

end Program

/-- The prefix that a breach has in a report on a program. -/
def inFunction (name : String) : String := s!"function @{name}: "

/-- The breaches of a program, each on a line with its function. -/
def reportLines (report : List (String × List Violation)) : List String :=
  report.flatMap fun (name, vs) => vs.map fun v => inFunction name ++ v.message

/-- The breaches of a program as one text, where each function is named once. -/
def reportText (report : List (String × List Violation)) : String :=
  "\n".intercalate (report.map fun (name, vs) =>
    inFunction name ++ "\n".intercalate (vs.map Violation.message))

end Midend
