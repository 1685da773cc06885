import Midend.Options
import Midend.Pass.ConstProp
import Midend.Pass.Sweep
import Midend.Program.Verify

/-!
# The optimizer

The peephole walk is repeated until it changes nothing or the limit is reached.  Then constants
are propagated and dead code is swept in each function, and last the result is verified if that
was asked for.

## Main definitions

* `rewritePass`, `concludePass`: the passes in order, and what follows them.
* `optimize`: both together, on a program.
* `VerifyError`: the breaches that verification found.
-/

namespace Midend

/-- Breaches that were found after optimizing. -/
structure VerifyError where
  /-- The name of the program. -/
  program : String
  /-- The breaches, by function. -/
  report : List (String × List Violation)
  deriving DecidableEq, Repr, Inhabited

/-- What precedes a breach that was found after optimizing. -/
def VerifyError.heading (e : VerifyError) : String := s!"optimize {e.program}: "

/-- The breaches, each on a line of its own with the program and the function. -/
def VerifyError.lines (e : VerifyError) : List String :=
  (reportLines e.report).map (e.heading ++ ·)

/-- The breaches as one text. -/
def VerifyError.message (e : VerifyError) : String := e.heading ++ reportText e.report

/-- Walks through the program at most the given number of times, until nothing changes. -/
def walkRounds : Nat → Pass Unit
  | 0 => pure ()
  | left + 1 => do
    Pass.count fun s => { s with rounds := s.rounds + 1 }
    if ← walk then walkRounds left

/-- Runs a pass on a function and logs whether it changed anything. -/
def runPass (description : String) (pass : FuncId → Pass Bool) (f : FuncId) : Pass Unit := do
  if ← pass f then
    let p ← Pass.program
    Pass.log {
      level := .debug
      message := "function changed"
      attrs := [("pass", description), ("func", (p.func f).name)] }

/-- Propagates constants and sweeps dead code, function by function. -/
def runFuncPasses : List FuncId → Pass Unit
  | [] => pure ()
  | f :: rest => do
    runPass "Constant Propagation" constProp f
    runPass "Dead Code Sweep" sweep f
    runFuncPasses rest

/-- Rewrites the program of a session as the options ask. -/
def rewritePass (o : Options) : Pass Unit := do
  if o.peephole then walkRounds o.maxRounds.toNat
  if o.constProp then runFuncPasses (List.range (← Pass.program).funcs.size)

/-- Verifies the program of a session if that was asked for, and logs what was done to it unless
there are breaches. -/
def concludePass (o : Options) : Pass (Except VerifyError Unit) := do
  let p ← Pass.program
  let report := if o.verify then p.verify else []
  if !report.isEmpty then return .error ⟨p.name, report⟩
  Pass.log {
    level := .info
    message := "module optimized"
    attrs := [("module", p.name), ("stats", (← get).stats.text)] }
  return .ok ()

/-- Optimizes the program of a session. -/
def optimizePass (o : Options) : Pass (Except VerifyError Unit) := do
  rewritePass o
  concludePass o

/-- Optimizes a program.  The session tells what was done. -/
def optimize (o : Options) (p : Program) : Except Fault (Except VerifyError Unit) × Session :=
  (optimizePass o).run { program := p }

end Midend
