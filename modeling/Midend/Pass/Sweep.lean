import Midend.Pass.Peephole

/-!
# Sweeping dead code

Erases instructions that only compute a value nobody uses, until there are none left.  All
instructions of the function wait in a queue; when one is erased, the instructions it used line
up again.

## Main definitions

* `sweepFrom`: works off the queue.
* `sweep`: the pass.
-/

namespace Midend

/-- Works off a queue of instructions.  The bound is on the number of instructions taken from it; a
queue that holds out longer is a fault, so one that ends without a fault is empty.  How many were
erased? -/
def sweepFrom : Nat → List InstrId → Pass Nat
  | _, [] => pure 0
  | 0, _ :: _ => throw .unfinished
  | fuel + 1, i :: queue => do
    let x := (← Pass.program).instr i
    if ← Pass.edit (dce i) then
      let b ← Act.demand x.place.block?
      Pass.logChange "swept dead instruction" "sweep" b (.instr i) []
      return (← sweepFrom fuel (queue ++ x.operandInstrs)) + 1
    else sweepFrom fuel queue

/-- The number of operand slots of all instructions. -/
def Program.slotCount (p : Program) : Nat :=
  sumOf (fun i => i.operands.length) p.instrs.cells.toList

/-- Sweeps a function.  Every instruction lines up once, and once more for each operand slot that
is given up, which bounds the length of the queue.  Did anything change? -/
def sweep (f : FuncId) : Pass Bool := do
  let p ← Pass.program
  let queue := p.funcInstrs f
  let n ← sweepFrom (queue.length + p.slotCount) queue
  Pass.count fun s => { s with erased := s.erased + n }
  return n ≠ 0

end Midend
