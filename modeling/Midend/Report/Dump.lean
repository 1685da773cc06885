import Midend.Flow.ReachingStores

/-!
# Dumps

A dump shows a record with the type of every part, one part to a line, indented by depth.  Texts
are quoted and carry their length in bytes; lists carry their length unless they are empty.

## Main definitions

* `Dump`: what can be dumped.
* `Dump.render`: its text.
* `dumpProgram`: the size of a program and the reaching stores of its functions.
-/

namespace Midend.Report

/-- What can be dumped. -/
inductive Dump where
  /-- A number. -/
  | int (n : Nat)
  /-- A text. -/
  | text (s : String)
  /-- A list that was never made, of a given type. -/
  | noList (type : String)
  /-- A list of a given type. -/
  | list (type : String) (items : List Dump)
  /-- A record of a given type, with named parts. -/
  | record (type : String) (parts : List (String × Dump))
  deriving Inhabited

namespace Dump

/-- The blanks in front of a line. -/
def indentation (depth : Nat) : String := String.ofList (List.replicate (4 * depth) ' ')

/-- The length of something, unless it is empty. -/
def lengthMark (n : Nat) : String := if n = 0 then "" else s!"(len={n}) "

mutual

/-- The text of a dump whose first line is already indented. -/
def render (depth : Nat) : Dump → String
  | .int n => s!"(int) {n}"
  | .text s => s!"(string) {lengthMark s.utf8ByteSize}{Text.quote s}"
  | .noList type => s!"({type}) <nil>"
  | .list type items =>
    s!"({type}) {lengthMark items.length}\x7b\n" ++ renderItems (depth + 1) items ++
      indentation depth ++ "\x7d"
  | .record type parts =>
    s!"({type}) \x7b\n" ++ renderParts (depth + 1) parts ++ indentation depth ++ "\x7d"

/-- The lines of the items of a list. -/
def renderItems (depth : Nat) : List Dump → String
  | [] => ""
  | [d] => indentation depth ++ render depth d ++ "\n"
  | d :: rest => indentation depth ++ render depth d ++ ",\n" ++ renderItems depth rest

/-- The lines of the parts of a record. -/
def renderParts (depth : Nat) : List (String × Dump) → String
  | [] => ""
  | [(name, d)] => indentation depth ++ name ++ ": " ++ render depth d ++ "\n"
  | (name, d) :: rest =>
    indentation depth ++ name ++ ": " ++ render depth d ++ ",\n" ++ renderParts depth rest

end

/-- A list of texts. -/
def texts (l : List String) : Dump := .list "[]string" (l.map .text)

/-- The dump of a size. -/
def ofSize (s : Size) : Dump :=
  .record "debug.Stats" [("Functions", .int s.functions), ("Globals", .int s.globals),
    ("Blocks", .int s.blocks), ("Instructions", .int s.instructions)]

/-- The dump of the reaching stores of a block. -/
def ofBlock (b : Flow.BlockReport) : Dump :=
  .record "debug.BlockState" [("Name", .text b.name), ("Preds", texts b.preds),
    ("Succs", texts b.succs), ("In", texts b.ins), ("Gen", texts b.gens),
    ("Kill", texts b.kills), ("Out", texts b.outs)]

/-- The dump of the reaching stores of a function.  The list of blocks is made with the first
block. -/
def ofFunc (f : Flow.FuncReport) : Dump :=
  let blocks :=
    match f.blocks with
    | [] => .noList "[]debug.BlockState"
    | bs => .list "[]debug.BlockState" (bs.map ofBlock)
  .record "debug.FunctionState" [("Name", .text f.name), ("Pops", .int f.pops),
    ("Changes", .int f.changes), ("Unreachable", texts f.unreachable), ("Blocks", blocks)]

end Dump

/-- The size of a program and the reaching stores of all its functions. -/
def dumpProgram (p : Program) : Except Fault String := do
  let funcs ← (List.range p.funcs.size).mapM (Flow.funcReport p)
  let dumps := Dump.ofSize p.size :: funcs.map Dump.ofFunc
  pure (String.join (dumps.map fun d => d.render 0 ++ "\n"))

end Midend.Report
