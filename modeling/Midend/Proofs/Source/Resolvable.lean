import Midend.Source.Syntax

/-!
# Names that resolve

When the names of a program can be resolved, said on its syntax alone.  Names of global variables and of
functions are distinct.  Within a function the labels are distinct, and so are the names of the
parameters and of the results together; nothing comes behind a jump; what an operand or a jump names is
defined; and within one block a result is defined before it is used.

## Main definitions

* `InstrSyntax.defines`, `FuncSyntax.valueNames`: the names that are defined.
* `BlockSyntax.Ordered`: definitions come before uses.
* `FuncSyntax.Resolves`, `ProgramSyntax.Resolves`: all names resolve.
-/

namespace Midend.Source

/-- The name an instruction gives its result, if any. -/
def InstrSyntax.defines (i : InstrSyntax) : Option String :=
  if i.name = "" then none else some i.name

/-- The instructions of a function, in the order of the text. -/
def FuncSyntax.instrs (fn : FuncSyntax) : List InstrSyntax := fn.blocks.flatMap (·.instrs)

/-- The labels of a function. -/
def FuncSyntax.labels (fn : FuncSyntax) : List String := fn.blocks.map (·.name)

/-- The names of the parameters and of the results of a function. -/
def FuncSyntax.valueNames (fn : FuncSyntax) : List String :=
  fn.params.map (·.name) ++ fn.instrs.filterMap InstrSyntax.defines

/-- What an operand names is defined. -/
def Operand.Known (values globals : List String) (a : Operand) : Prop :=
  match a.form with
  | .value n => n ∈ values
  | .global n => n ∈ globals
  | .literal _ => True

/-- An operand of `i` is the result of `d`, by its name. -/
def InstrSyntax.Uses (i d : InstrSyntax) : Prop :=
  ∃ a ∈ i.args, ∃ n, a.form = .value n ∧ d.defines = some n

/-- The instructions of one block are in order. -/
structure BlockSyntax.Ordered (b : BlockSyntax) : Prop where
  /-- Nothing comes behind a jump. -/
  jumps : b.instrs.Pairwise fun i _ => i.op.isTerminator = false
  /-- No instruction uses its own result. -/
  itself : ∀ i ∈ b.instrs, ¬i.Uses i
  /-- No instruction uses the result of a later one. -/
  later : b.instrs.Pairwise fun i d => ¬i.Uses d

/-- The names of a function resolve, where `globals` are the global variables. -/
structure FuncSyntax.Resolves (globals : List String) (fn : FuncSyntax) : Prop where
  /-- No value has the name of another one. -/
  values : fn.valueNames.Nodup
  /-- No block has the label of another one. -/
  labels : fn.labels.Nodup
  /-- The blocks are in order. -/
  ordered : ∀ b ∈ fn.blocks, b.Ordered
  /-- Operands are defined. -/
  operands : ∀ i ∈ fn.instrs, ∀ a ∈ i.args, a.Known fn.valueNames globals
  /-- Jumps lead to blocks of the function. -/
  targets : ∀ i ∈ fn.instrs, ∀ t ∈ i.targets, t.name ∈ fn.labels

/-- The names of a program resolve. -/
structure ProgramSyntax.Resolves (p : ProgramSyntax) : Prop where
  /-- No global variable has the name of another one. -/
  globals : (p.globals.map (·.name)).Nodup
  /-- No function has the name of another one. -/
  funcs : (p.funcs.map (·.name)).Nodup
  /-- The names of every function resolve. -/
  each : ∀ fn ∈ p.funcs, fn.Resolves (p.globals.map (·.name))

end Midend.Source
