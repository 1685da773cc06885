import Midend.Flow.BitSet
import Midend.Flow.Solver
import Midend.Program.Printer

/-!
# Reaching stores

Which stores can have been executed when a block is left.  A block adds its own stores.  It
removes those of its stores that share their address with another of its stores, but what it
adds is added back afterwards, so every store of a block leaves it.

## Main definitions

* `InstrSet`: sets of instructions of a program.
* `storesOf`, `genSet`, `killSet`: what a block adds and removes.
* `reachingStores`: the problem.
* `solveReachingStores`: its solution for a function.
-/

namespace Midend.Flow

/-! ### Sets of instructions -/

/-- A set of instructions of a program with `n` instructions. -/
abbrev InstrSet (n : Nat) := BitSet n

/-- The elements of a set of instructions, by their numbers within their function. -/
def InstrSet.sorted {n : Nat} (p : Program) (s : InstrSet n) : List InstrId :=
  s.toList.mergeSort fun i j => (p.instr i).id ≤ (p.instr j).id

/-- The text of a set of instructions. -/
def InstrSet.text {n : Nat} (p : Program) (s : InstrSet n) : String :=
  let items := (InstrSet.sorted p s).map fun i => s!"{(p.instr i).op.text}(#{(p.instr i).id})"
  "\x7b" ++ ", ".intercalate items ++ "\x7d"

/-! ### The problem -/

/-- The stores of a block, in order. -/
def storesOf (p : Program) (b : BlockRef) : List InstrId :=
  (p.block b).instrs.filter fun i => (p.instr i).op = .store

/-- What a block adds: its stores. -/
def genSet (n : Nat) (p : Program) (b : BlockRef) : InstrSet n := BitSet.ofList (storesOf p b)

/-- The address slot of a store. -/
def addressOf (p : Program) (i : InstrId) : Except Fault (Option Value) :=
  match (p.instr i).operands[1]? with
  | some v => .ok v
  | none => .error .absent

/-- What a block removes: its stores that share their address with another of its stores.  The
addresses are looked at only if there are two stores. -/
def killSet (n : Nat) (p : Program) (b : BlockRef) : Except Fault (InstrSet n) :=
  match storesOf p b with
  | [] | [_] => .ok .empty
  | stores => do
    let addresses ← stores.mapM (addressOf p)
    let shared := (stores.zip addresses).filter fun s => 2 ≤ addresses.count s.2
    pure (BitSet.ofList (shared.map Prod.fst))

/-- What leaves a block. -/
def transferStores {n : Nat} (inn gen kill : InstrSet n) : InstrSet n :=
  ((inn.union gen).diff kill).union gen

/-- The problem of reaching stores for programs with `n` instructions.  The program is read from
the state anew at each visit, since it may be edited in between. -/
def reachingStores {σ : Type} (n : Nat) (read : σ → Program) : Problem σ (InstrSet n) where
  program := read
  init := .empty
  gen b := return genSet n (read (← get)) b
  kill b _ := do Act.ofExcept (killSet n (read (← get)) b)
  transfer := transferStores
  merge := BitSet.union
  equal s t := s = t
  includes s t := t.subset s
  room := BitSet.room
  room_lt _ _ hne hsub := BitSet.room_lt (by simpa using hne) hsub

/-- The reaching stores of a function. -/
def solveReachingStores {σ : Type} (p : Program) (f : FuncId) (read : σ → Program)
    (onChange : BlockRef → InstrSet p.instrs.size → Act σ Unit) :
    Act σ (Solution (InstrSet p.instrs.size)) :=
  solve (reachingStores p.instrs.size read) p f onChange

/-! ### Reports -/

/-- The reaching stores of a block, in words. -/
structure BlockReport where
  /-- The label of the block. -/
  name : String
  /-- The labels of the blocks that jump to it. -/
  preds : List String
  /-- The labels of the blocks it jumps to. -/
  succs : List String
  /-- What enters it. -/
  ins : List String
  /-- What it adds. -/
  gens : List String
  /-- What it removes. -/
  kills : List String
  /-- What leaves it. -/
  outs : List String
  deriving DecidableEq, Repr, Inhabited

/-- The reaching stores of a function, in words. -/
structure FuncReport where
  /-- The name of the function. -/
  name : String
  /-- How many blocks the solver took from its stack. -/
  pops : Nat
  /-- How often what leaves a block has changed. -/
  changes : Nat
  /-- The labels of the blocks that cannot be reached. -/
  unreachable : List String
  /-- The blocks. -/
  blocks : List BlockReport
  deriving DecidableEq, Repr, Inhabited

/-- The elements of a set of instructions, in words. -/
def describeSet {n : Nat} (p : Program) (s : InstrSet n) : Except Fault (List String) :=
  (InstrSet.sorted p s).mapM fun i => do pure s!"#{(p.instr i).id}: {← p.instrText i}"

/-- The report on one block. -/
def blockReport {n : Nat} (p : Program) (g : Graph EdgeList) (sol : Solution (InstrSet n))
    (b : BlockRef) : Except Fault BlockReport := do
  let names := List.map fun c => (p.block c).name
  let describe (m : BlockMap (InstrSet n)) := describeSet p ((m.get? b).getD .empty)
  pure {
    name := (p.block b).name
    preds := names (g.predecessors b)
    succs := names (p.successors b)
    ins := ← describe sol.ins
    gens := ← describe sol.gens
    kills := ← describe sol.kills
    outs := ← describe sol.outs }

/-- The report on a function of a program that nobody edits meanwhile. -/
def funcReport (p : Program) (f : FuncId) : Except Fault FuncReport := do
  let quiet := fun (_ : BlockRef) (_ : InstrSet p.instrs.size) => (pure () : Act Program Unit)
  let sol ← ((solveReachingStores p f id quiet).run p).1
  let g ← Graph.ofFunc p f
  let blocks ← (p.blockRefs f).mapM (blockReport p g sol)
  pure {
    name := (p.func f).name
    pops := sol.pops
    changes := sol.changes
    unreachable := sol.unreachable.map fun b => (p.block b).name
    blocks := blocks }

end Midend.Flow
