import Midend.Table

/-!
# Values and their uses

Operands refer to values by number: constants, global storage, parameters and instructions are
each numbered through the whole program.  Every value has a list of the operand slots that hold
it, in the order in which they came to hold it.

## Main definitions

* `Value`: what an operand slot can hold.
* `Use`: an operand slot.
* `UseLists`: the use-list of every value.
-/

namespace Midend

/-- The number of an instruction. -/
abbrev InstrId := Nat

/-- The number of a constant.  Two constants of the same type and value are two constants. -/
abbrev ConstId := Nat

/-- The number of a global variable. -/
abbrev GlobalId := Nat

/-- The number of a parameter. -/
abbrev ParamId := Nat

/-- The number of a function. -/
abbrev FuncId := Nat

/-- What an operand slot can hold. -/
inductive Value where
  /-- An integer literal. -/
  | const (c : ConstId)
  /-- The address of a global variable. -/
  | global (g : GlobalId)
  /-- A parameter of a function. -/
  | param (p : ParamId)
  /-- The result of an instruction. -/
  | instr (i : InstrId)
  deriving DecidableEq, Repr, Inhabited

namespace Value

/-- Is it a constant? -/
def isConst : Value → Bool
  | .const _ => true
  | _ => false

/-- The instruction a value is the result of. -/
def instr? : Value → Option InstrId
  | .instr i => some i
  | _ => none

end Value

/-- An operand slot: the instruction it belongs to and its index there. -/
structure Use where
  /-- The instruction. -/
  user : InstrId
  /-- The index among the operands of the instruction. -/
  index : Nat
  deriving DecidableEq, Repr, Inhabited

/-- The use-lists of all values. -/
structure UseLists where
  /-- Uses of constants. -/
  consts : Table (List Use) := {}
  /-- Uses of global variables. -/
  globals : Table (List Use) := {}
  /-- Uses of parameters. -/
  params : Table (List Use) := {}
  /-- Uses of instructions. -/
  instrs : Table (List Use) := {}
  deriving Inhabited

namespace UseLists

/-- The uses of a value, oldest first. -/
def get (u : UseLists) : Value → List Use
  | .const c => u.consts.get c
  | .global g => u.globals.get g
  | .param p => u.params.get p
  | .instr i => u.instrs.get i

/-- Replaces the use-list of a value. -/
def set (u : UseLists) (v : Value) (l : List Use) : UseLists :=
  match v with
  | .const c => { u with consts := u.consts.set c l }
  | .global g => { u with globals := u.globals.set g l }
  | .param p => { u with params := u.params.set p l }
  | .instr i => { u with instrs := u.instrs.set i l }

theorem get_set (u : UseLists) (v w : Value) (l : List Use) :
    (u.set v l).get w = if v = w then l else u.get w := by
  cases v <;> cases w <;> simp [get, set, Table.get_set]

@[simp] theorem get_set_self (u : UseLists) (v : Value) (l : List Use) :
    (u.set v l).get v = l := by
  simp [get_set]

/-- Adds a use at the end of the use-list of a value. -/
def add (u : UseLists) (v : Value) (slot : Use) : UseLists :=
  u.set v (u.get v ++ [slot])

/-- Takes the first occurrence of a slot out of the use-list of a value. -/
def remove (u : UseLists) (v : Value) (slot : Use) : UseLists :=
  u.set v ((u.get v).erase slot)

theorem get_add (u : UseLists) (v w : Value) (slot : Use) :
    (u.add v slot).get w = if v = w then u.get v ++ [slot] else u.get w :=
  get_set u v w _

theorem get_remove (u : UseLists) (v w : Value) (slot : Use) :
    (u.remove v slot).get w = if v = w then (u.get v).erase slot else u.get w :=
  get_set u v w _

end UseLists

end Midend
