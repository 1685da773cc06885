import Midend.Pass.Session

/-!
# The peephole walk

Three local simplifications, applied to every instruction in block order:

* an instruction that only computes a value is erased if nobody uses it;
* arithmetic on two constants is replaced by its result;
* if the two operands of an instruction are instructions of the same operation and type, the
  second one is replaced by the first operand of the first one.

The walk stands on an instruction and takes its successor before the instruction is changed.
A simplification may erase instructions further on; the walk passes over those.

## Main definitions

* `dce`, `constFold`, `cse`: the simplifications.
* `visitInstr`, `walkFrom`, `walkBlock`, `peephole`, `walk`: the walk over an instruction, a
  block, a function, a program.
-/

namespace Midend

/-! ### Simplifications -/

/-- Erases an instruction that only computes a value nobody uses.  Was it erased? -/
def dce (i : InstrId) : Edit Bool := do
  let p ← get
  let x := p.instr i
  if x.isErased || !x.isPure || p.usesOf (.instr i) ≠ [] then pure false
  else
    forceErase i
    pure true

/-- The two operands of an instruction that has exactly two. -/
def twoOperands? (x : Instr) : Option (Option Value × Option Value) :=
  match x.operands with
  | [v, w] => some (v, w)
  | _ => none

/-- The constant that an instruction computes, if it is arithmetic on two constants. -/
def foldedConst? (p : Program) (i : InstrId) : Option Const :=
  let x := p.instr i
  if x.isErased || x.ty.isVoid then none
  else
    match twoOperands? x with
    | some (some (.const c), some (.const d)) => foldConst x.op (p.consts.get c) (p.consts.get d)
    | _ => none

/-- Replaces arithmetic on two constants by its result and erases it.  The result is the new
constant, or the instruction itself if it was left alone. -/
def constFold (i : InstrId) : Edit Value := do
  match foldedConst? (← get) i with
  | none => pure (.instr i)
  | some c =>
    let v := Value.const (← modifyGet fun p =>
      (p.consts.size, { p with consts := p.consts.push c }))
    replaceAllUses (some (.instr i)) (some v)
    forceErase i
    pure v

/-- The operands of an instruction, if they are instructions of the same operation and type that
can be merged: both have an operand, and the first operand of the first one is not the
second. -/
def siblings? (p : Program) (i : InstrId) : Option (InstrId × InstrId) :=
  let x := p.instr i
  if x.isErased then none
  else
    match twoOperands? x with
    | some (some (.instr a), some (.instr b)) =>
      let s := p.instr a
      let t := p.instr b
      if s.op ≠ t.op || s.ty ≠ t.ty then none
      else if s.operands.isEmpty || t.operands.isEmpty then none
      else if s.operands.head? = some (some (.instr b)) then none
      else some (a, b)
    | _ => none

theorem operands_of_twoOperands {x : Instr} {v w : Option Value}
    (h : twoOperands? x = some (v, w)) : x.operands = [v, w] := by
  unfold twoOperands? at h
  split at h
  · next hops =>
    cases h
    exact hops
  · cases h

/-- Siblings are the two operands of the instruction, and both have operands. -/
theorem operands_of_siblings {p : Program} {i a b : InstrId} (h : siblings? p i = some (a, b)) :
    (p.instr i).operands = [some (.instr a), some (.instr b)] ∧ (p.instr a).operands ≠ [] ∧
      (p.instr b).operands ≠ [] := by
  dsimp only [siblings?] at h
  split at h
  · cases h
  · split at h
    · next hops =>
      split at h
      · cases h
      · split at h
        · cases h
        · next hempty =>
          split at h
          · cases h
          · cases h
            simp only [Bool.or_eq_true, List.isEmpty_iff, not_or] at hempty
            exact ⟨operands_of_twoOperands hops, hempty⟩
    · cases h

/-- Merges the operands of an instruction if they look alike: every use of the second goes to the
first operand of the first, as does the first operand of the second.  Afterwards the first is
erased if nobody uses it, and so is the former operand of the second.  Did they look alike? -/
def cse (v : Option Value) : Edit Bool := do
  match v with
  | some (.instr i) =>
    match siblings? (← get) i with
    | none => pure false
    | some (a, b) =>
      let first := ((← get).instr a).operands.head?.join
      let former := ((← get).instr b).operands.head?.join
      replaceAllUses (some (.instr b)) first
      setOperand b 0 first
      discard (erase a)
      match former with
      | some (.instr t) => discard (dce t)
      | _ => pure ()
      pure true
  | _ => pure false

/-! ### The walk -/

/-- Applies the simplifications to an instruction.  Did anything change? -/
def visitInstr (b : BlockRef) (i : InstrId) : Pass Bool := do
  if ((← Pass.program).instr i).isErased then return false
  if ← Pass.edit (dce i) then
    Pass.count fun s => { s with erased := s.erased + 1 }
    Pass.logChange "erased dead instruction" "dce" b (.instr i) []
    return true
  let v ← Pass.edit (constFold i)
  let folded := v ≠ .instr i
  if folded then
    Pass.count fun s => { s with folded := s.folded + 1 }
    Pass.logChange "folded constant" "constfold" b (.instr i) [("result", (← Pass.program).label v)]
  let merged ← Pass.edit (cse (some v))
  if merged then
    Pass.count fun s => { s with cse := s.cse + 1 }
    Pass.logChange "merged sibling operands" "cse" b v []
  return folded || merged

/-- Walks on from an instruction to the end of the block.  The bound is on the number of
instructions; a walk that needs more is a fault, so one that ends without a fault has come to the
end.  Did anything change? -/
def walkFrom (b : BlockRef) : Nat → Option InstrId → Pass Bool
  | _, none => pure false
  | 0, some _ => throw .unfinished
  | fuel + 1, some i => do
    let next := (← Pass.program).next? i
    let changed ← visitInstr b i
    let more ← walkFrom b fuel next
    return changed || more

/-- Walks through a block. -/
def walkBlock (b : BlockRef) : Pass Bool := do
  let blk := (← Pass.program).block b
  Pass.visit (.block blk.name)
  walkFrom b blk.size blk.head

/-- Performs an action on each element of a list.  Did any of them report a change? -/
def Pass.anyOf {α : Type} (f : α → Pass Bool) : List α → Pass Bool
  | [] => pure false
  | a :: rest => do
    let changed ← f a
    let more ← Pass.anyOf f rest
    return changed || more

/-- Walks through the blocks of a function. -/
def peephole (f : FuncId) : Pass Bool := do
  Pass.anyOf walkBlock ((← Pass.program).blockRefs f)

/-- Walks through a function of a program. -/
def walkFunc (f : FuncId) : Pass Bool := do
  Pass.visit (.func ((← Pass.program).func f).name)
  peephole f

/-- Walks through all functions of a program. -/
def walk : Pass Bool := do
  Pass.anyOf walkFunc (List.range (← Pass.program).funcs.size)

end Midend
