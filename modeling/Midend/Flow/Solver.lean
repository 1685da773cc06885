import Midend.Flow.Graph

/-!
# Solving forward data-flow problems

A problem assigns each block what it adds (`gen`) and removes (`kill`); what leaves a block is
computed from these and from what enters it, and what enters it is merged from what leaves its
predecessors.  The solver repeats this for the blocks on a stack until nothing changes.  What
leaves a block may only grow; each problem says how much room its sets have left to grow, and
that bounds the work.

## Main definitions

* `BlockMap`: a set for every block.
* `Problem`: what to compute.
* `solve`: the solver; a callback is told about every change and may edit the program, though
  not its jumps.
-/

namespace Midend.Flow

/-! ### Sets by block -/

/-- A value for each of a list of blocks. -/
abbrev BlockMap (S : Type) := List (BlockRef × S)

namespace BlockMap

variable {S : Type}

/-- The same value for every block. -/
def fill (blocks : List BlockRef) (s : S) : BlockMap S := blocks.map (·, s)

/-- The value of a block. -/
def get? (m : BlockMap S) (b : BlockRef) : Option S := m.lookup b

/-- Replaces the value of a block. -/
def set (m : BlockMap S) (b : BlockRef) (s : S) : BlockMap S :=
  match m with
  | [] => []
  | (c, t) :: rest => if b = c then (c, s) :: rest else (c, t) :: set rest b s

/-- The sum of a measure over all blocks. -/
def total (m : BlockMap S) (measure : S → Nat) : Nat := sumOf (fun e => measure e.2) m

theorem total_set_lt (measure : S → Nat) {m : BlockMap S} {b : BlockRef} {old new : S}
    (hold : m.get? b = some old) (hlt : measure new < measure old) :
    (m.set b new).total measure < m.total measure := by
  induction m with
  | nil => simp [get?] at hold
  | cons e rest ih =>
    obtain ⟨c, t⟩ := e
    by_cases hbc : b = c
    · subst hbc
      simp only [get?, List.lookup_cons, beq_self_eq_true, Option.some.injEq] at hold
      subst hold
      simpa [set, total, sumOf] using hlt
    · have hne : (b == c) = false := by simpa using hbc
      simp only [get?, List.lookup_cons, hne] at hold
      have := ih hold
      simp only [total] at this
      simpa [set, hbc, total, sumOf] using this

end BlockMap

/-! ### Problems -/

/-- A forward data-flow problem over sets of type `S`, in actions on a state of type `σ`. -/
structure Problem (σ S : Type) where
  /-- The program, as it is in a state. -/
  program : σ → Program
  /-- The set everything starts with. -/
  init : S
  /-- What a block adds. -/
  gen : BlockRef → Act σ S
  /-- What a block removes, given what it adds. -/
  kill : BlockRef → S → Act σ S
  /-- What leaves a block, from what enters it, what it adds and what it removes. -/
  transfer : S → S → S → S
  /-- The union of two sets. -/
  merge : S → S → S
  /-- Are two sets equal? -/
  equal : S → S → Bool
  /-- Does the first set include the second? -/
  includes : S → S → Bool
  /-- How often a set can still grow. -/
  room : S → Nat
  /-- A set that has grown has less room. -/
  room_lt : ∀ new old, equal new old = false → includes new old = true → room new < room old

/-- What is known about the blocks, and how much work it took. -/
structure Solution (S : Type) where
  /-- What enters each block. -/
  ins : BlockMap S
  /-- What each block adds. -/
  gens : BlockMap S
  /-- What each block removes. -/
  kills : BlockMap S
  /-- What leaves each block. -/
  outs : BlockMap S
  /-- How many blocks were taken from the stack. -/
  pops : Nat := 0
  /-- How often what leaves a block has changed. -/
  changes : Nat := 0
  /-- The blocks that cannot be entered from the first one. -/
  unreachable : List BlockRef := []
  deriving Inhabited

/-- What is known to begin with. -/
def Solution.start {σ S : Type} (prob : Problem σ S) (p : Program) (unreachable : List BlockRef) :
    Solution S :=
  let all := BlockMap.fill p.allBlockRefs prob.init
  { ins := all, gens := all, kills := all, outs := all, unreachable := unreachable }

/-- What enters a block: the union of what leaves its predecessors. -/
def entering {σ S : Type} (prob : Problem σ S) (g : Graph EdgeList) (outs : BlockMap S)
    (b : BlockRef) : S :=
  (g.predecessors b).foldl (fun acc c => prob.merge acc ((outs.get? c).getD prob.init)) prob.init

/-- Works off a stack of blocks.  Either what leaves a block has grown, and there is less room
than before, or the stack has become shorter.  The blocks to visit next are read from the program as
the callback has left it. -/
def solveFrom {σ S : Type} (prob : Problem σ S) (p : Program) (g : Graph EdgeList)
    (onChange : BlockRef → S → Act σ Unit) (sol : Solution S) :
    List BlockRef → Act σ (Solution S)
  | [] => pure sol
  | b :: stack => do
    match hold : sol.outs.get? b with
    | none => solveFrom prob p g onChange sol stack
    | some old =>
      let inn := entering prob g sol.outs b
      let gen ← prob.gen b
      let kill ← prob.kill b gen
      let out := prob.transfer inn gen kill
      let sol' := { sol with
        ins := sol.ins.set b inn, gens := sol.gens.set b gen, kills := sol.kills.set b kill,
        pops := sol.pops + 1 }
      if heq : prob.equal out old = true then solveFrom prob p g onChange sol' stack
      else if hinc : prob.includes out old = true then do
        have := BlockMap.total_set_lt prob.room hold
          (prob.room_lt out old (Bool.eq_false_iff.mpr heq) hinc)
        onChange b out
        let succs := (prob.program (← get)).successors b
        solveFrom prob p g onChange
          { sol' with outs := sol.outs.set b out, changes := sol.changes + 1 }
          (succs.reverse ++ stack)
      else throw (.shrinking (p.block b).name)
termination_by stack => (sol.outs.total prob.room, stack.length)
decreasing_by
  · exact Prod.Lex.right _ (Nat.lt_succ_self _)
  · exact Prod.Lex.right _ (Nat.lt_succ_self _)
  · exact Prod.Lex.left _ _ this

/-- Solves a problem for a function.  All its blocks are on the stack to begin with, the last one
on top.  A jump into another function draws the blocks there in. -/
def solve {σ S : Type} (prob : Problem σ S) (p : Program) (f : FuncId)
    (onChange : BlockRef → S → Act σ Unit) : Act σ (Solution S) := do
  let g ← Act.ofExcept (Graph.ofFunc p f)
  solveFrom prob p g onChange (.start prob p (g.unreachable p)) (p.blockRefs f).reverse

end Midend.Flow
