import Midend.Flow.ReachingStores
import Midend.Pass.Session

/-!
# Propagating stored constants

A store of a constant replaces every use of its address by that constant, and an instruction with
a reaching store among its operands is replaced by that store.  The propagation in a block is
triggered by each change of the stores that leave it.  It does not look for other stores to the
same address.

## Main definitions

* `propagateInstr`, `propagateBlock`: the propagation.
* `constProp`: the pass.
-/

namespace Midend

open Midend.Flow (InstrSet)

/-- The first operand that is a reaching store. -/
def reachingOperand? {n : Nat} (x : Instr) (out : InstrSet n) : Option InstrId :=
  x.operandInstrs.find? out.has

/-- Replaces the address of a store of a constant by that constant. -/
def propagateStore (b : BlockRef) (i : InstrId) : Pass Unit := do
  let ptr ← Pass.edit (pointer i)
  let val ← Pass.edit (storeValue i)
  match val with
  | some (.const c) =>
    if ptr ≠ some (.const c) then
      Pass.count fun s => { s with propagated := s.propagated + 1 }
      Pass.edit (replaceAllUses ptr val)
      let ptr ← Act.demand ptr
      Pass.logChange "replaced pointer with stored constant" "constprop" b (.const c)
        [("pointer", (← Pass.program).label ptr)]
  | _ => pure ()

/-- Replaces an instruction, or the address it stores to, by what was stored. -/
def propagateInstr {n : Nat} (b : BlockRef) (out : InstrSet n) (i : InstrId) : Pass Unit := do
  let p ← Pass.program
  let x := p.instr i
  if x.op = .store then propagateStore b i
  else
    match reachingOperand? x out with
    | none => pure ()
    | some d =>
      if p.usesOf (.instr i) ≠ [] then
        Pass.count fun s => { s with propagated := s.propagated + 1 }
      Pass.edit (replaceAllUses (some (.instr i)) (some (.instr d)))
      Pass.logChange "replaced instruction with reaching store" "constprop" b (.instr i)
        [("store", ((← Pass.program).instr d).label)]

/-- Propagates through instructions in order. -/
def propagateInstrs {n : Nat} (b : BlockRef) (out : InstrSet n) : List InstrId → Pass Unit
  | [] => pure ()
  | i :: rest => do
    propagateInstr b out i
    propagateInstrs b out rest

/-- Propagates through a block that the given stores leave. -/
def propagateBlock {n : Nat} (b : BlockRef) (out : InstrSet n) : Pass Unit := do
  propagateInstrs b out ((← Pass.program).block b).instrs

/-- Logs blocks that cannot be reached. -/
def logUnreachable (f : FuncId) : List BlockRef → Pass Unit
  | [] => pure ()
  | b :: rest => do
    let p ← Pass.program
    Pass.log {
      level := .debug
      message := "unreachable block"
      attrs := [("pass", "constprop"), ("func", (p.func f).name),
        ("block", (p.block b).name)] }
    logUnreachable f rest

/-- Propagates stored constants through a function.  Did anything change? -/
def constProp (f : FuncId) : Pass Bool := do
  let before := (← get).stats.propagated
  let p ← Pass.program
  let sol ← Flow.solveReachingStores p f Session.program propagateBlock
  logUnreachable f sol.unreachable
  Pass.count fun s => { s with dataflowPops := s.dataflowPops + sol.pops }
  return (← get).stats.propagated ≠ before

end Midend
