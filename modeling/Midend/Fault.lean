import Midend.Opcode
import Midend.Ty

/-!
# Faults

A fault is a call that the program model refuses: its arguments break a rule that the caller
was to keep.  A fault stops the call where it was found; what the call did up to that point
stays done.

## Main definitions

* `Fault`: the causes, and their wording.
* `Act`: actions that may end in a fault.
-/

namespace Midend

/-- Why a call was refused. -/
inductive Fault where
  /-- A missing value was given as an operand. -/
  | missingOperand (index : Int) (op : Opcode)
  /-- Only stores have a stored value. -/
  | noStoreValue (op : Opcode)
  /-- Only loads and stores have an address. -/
  | noPointer (op : Opcode)
  /-- An instruction can be placed in a block only once. -/
  | alreadyPlaced (instr : String)
  /-- The instruction to insert before stands in another block. -/
  | foreignPosition (block : String)
  /-- Nothing can be emitted behind a terminator. -/
  | terminated (block : String) (op : Opcode)
  /-- The operation is no binary arithmetic. -/
  | notArithmetic (op : Opcode)
  /-- An instruction was to be erased although it is still used. -/
  | forcedErase (instr : String) (uses : Nat)
  /-- The kind of a type has no name. -/
  | unknownTypeKind (code : UInt8)
  /-- A set of the data-flow analysis lost an element. -/
  | shrinking (block : String)
  /-- A block of another function has the number of the block that jumps to it. -/
  | selfEdge
  /-- Something that is not there was used: a missing value, or an operand out of range. -/
  | absent
  /-- A loop took more rounds than it was given. -/
  | unfinished
  deriving DecidableEq, Repr, Inhabited

/-- The complaint about an instruction that is still used. -/
def stillUsed (instr : String) (uses : Nat) : String :=
  s!"cannot erase {instr}: still has {uses} use(s)"

/-- The wording of a fault; using what is not there has none, nor has a loop that was cut off. -/
def Fault.message? : Fault → Option String
  | .missingOperand i op => some s!"ir: nil operand {i} for {op.text}"
  | .noStoreValue op => some s!"ir: StoreValue on {op.text}"
  | .noPointer op => some s!"ir: Pointer on {op.text}"
  | .alreadyPlaced i => some s!"ir: instruction is already attached or erased: {i}"
  | .foreignPosition b => some s!"ir: insertion point does not belong to {b}"
  | .terminated b op => some s!"ir: block {b} is already terminated by {op.text}"
  | .notArithmetic op => some s!"ir: not an arithmetic opcode: {op.text}"
  | .forcedErase i n => some s!"ir: force erase: {stillUsed i n}"
  | .unknownTypeKind n => some (Ty.unknownKind n)
  | .shrinking b => some s!"dataflow: OUT of block {b} is shrinking"
  | .selfEdge => some "simple: adding self edge"
  | .absent => none
  | .unfinished => none

/-- An action on a state that may end in a fault.  A fault keeps what was done before it. -/
abbrev Act (σ : Type) := ExceptT Fault (StateM σ)

/-- What is there, or the fault that it is not. -/
def Act.demand {σ α : Type} : Option α → Act σ α
  | some a => pure a
  | none => throw .absent

/-- A result that is a fault or a value. -/
def Act.ofExcept {σ α : Type} : Except Fault α → Act σ α
  | .ok a => pure a
  | .error f => throw f

/-- The name of a type, or the fault that its kind has none. -/
def Ty.name (t : Ty) : Except Fault String :=
  match t.name? with
  | some s => .ok s
  | none => .error (.unknownTypeKind t.kind.code)

end Midend
