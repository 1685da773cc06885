import Midend.Program.Edit
import Midend.Source.Parser

/-!
# Resolving names

A program is built from its syntax once all global variables are known.  The functions follow in
order; within a function first the parameters, then the blocks, then the instructions without
their operands, and last the operands and jump targets, so that a name can be used before it is
defined, though not within one block.

## Main definitions

* `Names`: the values of a function by name.
* `resolveFunc`: one function.
* `Program.parse`: the program of a text.
-/

namespace Midend.Source

/-- An action that builds a program. -/
abbrev Resolver := StateT Program (Except SourceError)

/-- The named values of a function. -/
abbrev Names := List (String × Value)

/-- The value of a name. -/
def Names.find? (names : Names) (name : String) : Option Value := names.lookup name

/-- Stops with an error. -/
def reject {α : Type} (pos : Position) (reason : Reason) : Resolver α :=
  throw ⟨pos, reason⟩

/-- Adds the parameters of a function. -/
def resolveParams (f : FuncId) : Names → List ParamSyntax → Resolver Names
  | names, [] => pure names
  | names, a :: rest => do
    if (names.find? a.name).isSome then reject a.pos (.duplicatedParam a.name)
    let id ← modifyGet (·.addParam f a.name a.ty)
    resolveParams f (names ++ [(a.name, .param id)]) rest

/-- Adds the blocks of a function. -/
def resolveBlocks (f : FuncId) : List BlockSyntax → Resolver Unit
  | [] => pure ()
  | b :: rest => do
    if ((← get).findBlock? f b.name).isSome then reject b.pos (.duplicatedLabel b.name)
    discard (modifyGet (·.addBlock f b.name))
    resolveBlocks f rest

/-- Adds the instructions of a block without their operands, and names their results. -/
def resolveInstrs (b : BlockRef) : Names → List InstrSyntax →
    Resolver (Names × List (InstrId × InstrSyntax))
  | names, [] => pure (names, [])
  | names, i :: rest => do
    let p ← get
    if (p.terminator? b).isSome then reject i.pos (.afterTerminator i.op (p.block b).name)
    if i.name ≠ "" && (names.find? i.name).isSome then reject i.pos (.duplicatedValue i.name)
    let id ← modifyGet (·.addInstr
      { op := i.op, name := i.name, ty := i.ty, elem := i.elem, callee := i.callee })
    modify (·.appendTo b id)
    let names := if i.name = "" then names else names ++ [(i.name, .instr id)]
    let (names, made) ← resolveInstrs b names rest
    pure (names, (id, i) :: made)

/-- Adds the instructions of all blocks from position `k` on. -/
def resolveBodies (f : FuncId) (k : Nat) : Names → List BlockSyntax →
    Resolver (Names × List (InstrId × InstrSyntax))
  | names, [] => pure (names, [])
  | names, b :: rest => do
    let (names, made) ← resolveInstrs ⟨f, k⟩ names b.instrs
    let (names, more) ← resolveBodies f (k + 1) names rest
    pure (names, made ++ more)

/-- The value of an operand. -/
def resolveOperand (names : Names) (i : InstrSyntax) (k : Nat) (a : Operand) :
    Resolver Value := do
  match a.form with
  | .value name =>
    match names.find? name with
    | some v => pure v
    | none => reject a.pos (.undefinedValue name)
  | .global name =>
    match (← get).findGlobal? name with
    | some g => pure (.global g)
    | none => reject a.pos (.undefinedGlobal name)
  | .literal v => return .const (← modifyGet (·.addConst (i.literalType k) v))

/-- The name an operand goes by. -/
def Operand.name (a : Operand) : String :=
  match a.form with
  | .value name | .global name => name
  | .literal _ => ""

/-- The values of the operands of an instruction from index `k` on.  Instructions are numbered
in the order of the text, so within a block only smaller numbers are defined before. -/
def resolveOperands (names : Names) (id : InstrId) (i : InstrSyntax) (k : Nat) :
    List Operand → Resolver (List Value)
  | [] => pure []
  | a :: rest => do
    let v ← resolveOperand names i k a
    let p ← get
    match v with
    | .instr d =>
      if (p.instr d).place = (p.instr id).place && id ≤ d then
        reject a.pos (.usedBeforeDefined a.name)
    | _ => pure ()
    return v :: (← resolveOperands names id i (k + 1) rest)

/-- The blocks an instruction jumps to. -/
def resolveTargets (f : FuncId) : List Target → Resolver (List BlockRef)
  | [] => pure []
  | t :: rest => do
    match (← get).findBlock? f t.name with
    | some b => return b :: (← resolveTargets f rest)
    | none => reject t.pos (.undefinedLabel t.name)

/-- Gives instructions their operands and targets. -/
def resolveUses (f : FuncId) (names : Names) : List (InstrId × InstrSyntax) → Resolver Unit
  | [] => pure ()
  | (id, i) :: rest => do
    let operands ← resolveOperands names id i 0 i.args
    let targets ← resolveTargets f i.targets
    modify fun p => (p.modifyInstr id fun x => { x with targets := targets }).assignOperands
      id (operands.map some)
    resolveUses f names rest

/-- Adds a function. -/
def resolveFunc (fn : FuncSyntax) : Resolver Unit := do
  if ((← get).findFunc? fn.name).isSome then reject fn.pos (.duplicatedFunction fn.name)
  let f ← modifyGet (·.addFunc fn.name fn.ret)
  let names ← resolveParams f [] fn.params
  resolveBlocks f fn.blocks
  let (names, made) ← resolveBodies f 0 names fn.blocks
  resolveUses f names made

/-- Adds functions in order. -/
def resolveFuncs : List FuncSyntax → Resolver Unit
  | [] => pure ()
  | fn :: rest => do
    resolveFunc fn
    resolveFuncs rest

/-- The global variables of a program, and nothing else. -/
def declareGlobals (name : String) (globals : List GlobalSyntax) : Program :=
  globals.foldl (fun p g => (p.addGlobal g.name g.elem).2) (Program.empty name)

/-- The program of a syntax. -/
def ProgramSyntax.resolve (name : String) (s : ProgramSyntax) : Except SourceError Program := do
  let (_, p) ← (resolveFuncs s.funcs).run (declareGlobals name s.globals)
  pure p

end Midend.Source

namespace Midend

open Source (ParseError ProgramSyntax)

/-- The program of a text, given by its bytes.  The name of the text becomes the name of the
program. -/
def Program.parse (name : String) (src : ByteArray) : Except ParseError Program :=
  match (do (← ProgramSyntax.parse (Text.Symbol.ofBytes src)).resolve name) with
  | .ok p => .ok p
  | .error e => .error { toSourceError := e, file := name }

end Midend
