/-!
# Opcodes

The operations of the intermediate language, their mnemonics and their classes.
-/

namespace Midend

/-- The operations. -/
inductive Opcode where
  /-- No operation at all. -/
  | invalid
  /-- Addition. -/
  | add
  /-- Subtraction. -/
  | sub
  /-- Multiplication. -/
  | mul
  /-- Division. -/
  | div
  /-- Comparison. -/
  | cmp
  /-- Reservation of storage. -/
  | alloca
  /-- Reading from an address. -/
  | load
  /-- Writing to an address. -/
  | store
  /-- Call of a function. -/
  | call
  /-- Jump. -/
  | br
  /-- Jump to one of two blocks. -/
  | condbr
  /-- Return. -/
  | ret
  /-- An operation number without a meaning. -/
  | unknown (code : UInt8)
  deriving DecidableEq, Repr, Inhabited

namespace Opcode

/-- The operations that have a mnemonic, in the order of their numbers from 1 on. -/
def named : List Opcode :=
  [.add, .sub, .mul, .div, .cmp, .alloca, .load, .store, .call, .br, .condbr, .ret]

/-- The number of an operation. -/
def code : Opcode → UInt8
  | .invalid => 0
  | .add => 1
  | .sub => 2
  | .mul => 3
  | .div => 4
  | .cmp => 5
  | .alloca => 6
  | .load => 7
  | .store => 8
  | .call => 9
  | .br => 10
  | .condbr => 11
  | .ret => 12
  | .unknown n => n

/-- The operation with a given number. -/
def ofCode (n : UInt8) : Opcode :=
  ((Opcode.invalid :: named).find? fun op => op.code = n).getD (.unknown n)

/-- The spelling of an operation. -/
def text : Opcode → String
  | .invalid => "invalid"
  | .add => "add"
  | .sub => "sub"
  | .mul => "mul"
  | .div => "div"
  | .cmp => "cmp"
  | .alloca => "alloca"
  | .load => "load"
  | .store => "store"
  | .call => "call"
  | .br => "br"
  | .condbr => "condbr"
  | .ret => "ret"
  | .unknown n => s!"op({n.toNat})"

/-- The operation a mnemonic stands for. -/
def parse? (s : String) : Option Opcode := named.find? fun op => op.text = s

/-- The arithmetic that can be evaluated ahead of time. -/
def isArith : Opcode → Bool
  | .add | .sub | .mul => true
  | _ => false

/-- Operations on exactly two values. -/
def isBinary : Opcode → Bool
  | .div | .cmp => true
  | op => op.isArith

/-- Operations that end a block. -/
def isTerminator : Opcode → Bool
  | .br | .condbr | .ret => true
  | _ => false

/-- Operations that can be observed even if nobody uses their result. -/
def hasSideEffects : Opcode → Bool
  | .store | .call => true
  | op => op.isTerminator

end Opcode

end Midend
