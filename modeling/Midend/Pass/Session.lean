import Midend.Program.Edit

/-!
# Optimization sessions

The passes work on a program, count what they do, log their changes and report which functions
and blocks the peephole walk visits.

## Main definitions

* `Stats`: the counters.
* `Visit`: a step of the peephole walk, as reported to the outside.
* `LogRecord`: a line of the log.
* `Session`, `Pass`: the state of the passes, and their actions.
-/

namespace Midend

/-- What the passes have done. -/
structure Stats where
  /-- Rounds of the peephole walk. -/
  rounds : Nat := 0
  /-- Instructions erased because nobody used them. -/
  erased : Nat := 0
  /-- Instructions replaced by a constant. -/
  folded : Nat := 0
  /-- Instructions whose two operands were merged. -/
  cse : Nat := 0
  /-- Values replaced by what was stored. -/
  propagated : Nat := 0
  /-- Blocks the data-flow solver took from its stack. -/
  dataflowPops : Nat := 0
  deriving DecidableEq, Repr, Inhabited

/-- The counters on one line. -/
def Stats.text (s : Stats) : String :=
  s!"rounds={s.rounds} erased={s.erased} folded={s.folded} cse={s.cse} " ++
  s!"propagated={s.propagated} dataflow_pops={s.dataflowPops}"

/-- A step of the peephole walk. -/
inductive Visit where
  /-- A function is entered. -/
  | func (name : String)
  /-- A block is entered. -/
  | block (name : String)
  deriving DecidableEq, Repr, Inhabited

/-- How important a line of the log is. -/
inductive LogLevel where
  /-- A single change. -/
  | debug
  /-- A summary. -/
  | info
  deriving DecidableEq, Repr, Inhabited

/-- The spelling of a level. -/
def LogLevel.text : LogLevel → String
  | .debug => "DEBUG"
  | .info => "INFO"

/-- A line of the log: a message and named attributes. -/
structure LogRecord where
  /-- How important it is. -/
  level : LogLevel
  /-- The message. -/
  message : String
  /-- The attributes, in order. -/
  attrs : List (String × String)
  deriving DecidableEq, Repr, Inhabited

/-- The state of the passes. -/
structure Session where
  /-- The program they work on. -/
  program : Program
  /-- What they have done. -/
  stats : Stats := {}
  /-- Where the peephole walk has been, oldest first. -/
  trace : Array Visit := #[]
  /-- The log, oldest first. -/
  log : Array LogRecord := #[]
  deriving Inhabited

/-- An action of a pass. -/
abbrev Pass := Act Session

namespace Pass

/-- Edits the program. -/
def edit {α : Type} (e : Edit α) : Pass α := fun s =>
  let (r, p) := e s.program
  (r, { s with program := p })

/-- The program as it is now. -/
def program : Pass Program := return (← get).program

/-- Updates the counters. -/
def count (f : Stats → Stats) : Pass Unit := modify fun s => { s with stats := f s.stats }

/-- Reports a step of the peephole walk. -/
def visit (v : Visit) : Pass Unit := modify fun s => { s with trace := s.trace.push v }

/-- Writes a line to the log. -/
def log (r : LogRecord) : Pass Unit := modify fun s => { s with log := s.log.push r }

/-- Logs a change of a pass to a value in a block. -/
def logChange (message pass : String) (b : BlockRef) (v : Value)
    (more : List (String × String)) : Pass Unit := do
  let p ← program
  log {
    level := .debug
    message := message
    attrs := [("pass", pass), ("func", (p.func b.func).name), ("block", (p.block b).name),
      ("value", p.label v)] ++ more }

end Pass

end Midend
