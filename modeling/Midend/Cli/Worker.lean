import Midend.Cache.Store
import Midend.Load
import Midend.Pass.Optimize
import Midend.Report.Color
import Midend.Report.Dump

/-!
# Workers

A worker optimizes the program of one file.  It works in three steps, so that workers can take
turns: it looks for the result in the cache, computes the result if it is not there, and stores
it.  The steps of a worker share nothing with other workers but the files.

## Main definitions

* `Plan`: what all workers are asked to do.
* `Worker`: a worker before, between or after its steps.
* `Worker.step`: one step.
* `Worker.run`: all steps.
* `Result`: what came out.
-/

namespace Midend.Cli

open Files (FileTree)
open Cache (CacheError Counts Entry Key)

/-- What all workers are asked to do. -/
structure Plan where
  /-- The options of the optimizer. -/
  options : Options := {}
  /-- Leave out the trace? -/
  quiet : Bool := false
  /-- Show the reaching stores? -/
  dump : Bool := false
  /-- Colour the trace? -/
  color : Bool := false
  /-- The cache, if one is used. -/
  cache : Option Cache := none
  deriving Inhabited

/-- Why there is no result. -/
inductive Failure where
  /-- The program cannot be loaded. -/
  | load (e : LoadError)
  /-- The cache failed. -/
  | cache (e : CacheError)
  /-- The result breaks the rules. -/
  | verify (e : VerifyError)
  /-- The optimizer was stopped by a fault. -/
  | fault (f : Fault)
  deriving Inhabited

/-- The wording of a failure. -/
def Failure.message : Failure → String
  | .load e => e.message
  | .cache e => e.message
  | .verify e => e.message
  | .fault f => f.message?.getD "invalid memory address"

/-- What came out for a file. -/
structure Result where
  /-- The path of the file. -/
  path : String
  /-- The text of the optimized program. -/
  output : List UInt8 := []
  /-- What is shown besides: the trace, and the reaching stores. -/
  trace : List UInt8 := []
  /-- The log. -/
  log : List LogRecord := []
  /-- Does the result come from the cache? -/
  cached : Bool := false
  /-- The counters. -/
  stats : Counts := {}
  /-- Why there is no result. -/
  failure : Option Failure := none
  deriving Inhabited

/-- A worker before, between or after its steps. -/
inductive Worker where
  /-- It has not begun. -/
  | fresh (path : String)
  /-- The result is not in the cache. -/
  | missed (path : String) (source : ByteArray) (key : Key)
  /-- The result is to be stored. -/
  | computed (key : Key) (entry : Entry) (result : Result)
  /-- It is done. -/
  | done (result : Result)
  deriving Inhabited

namespace Worker

/-- The bytes of a text. -/
def bytes (s : String) : List UInt8 := s.toUTF8.data.toList

/-- A worker that is done without a result. -/
def failed (path : String) (f : Failure) : Worker := .done { path := path, failure := some f }

/-- The result of an entry. -/
def replay (plan : Plan) (path : String) (e : Entry) : Result :=
  { path := path
    output := e.output
    trace := if plan.quiet then [] else e.trace
    cached := true
    stats := e.stats }

/-- The first step: reads the file, and looks for the result in the cache.  The cache does not know
the reaching stores. -/
def lookUp (plan : Plan) (t : FileTree) (path : String) : Worker :=
  match t.read path with
  | .error e => failed path (.load ⟨path, .file e⟩)
  | .ok source =>
    let key := Key.ofSource source plan.options
    match plan.cache with
    | none => .missed path source key
    | some c =>
      if plan.dump then .missed path source key
      else
        match c.get t key with
        | .error e => failed path (.cache e)
        | .ok (some e) => .done (replay plan path e)
        | .ok none => .missed path source key

/-- What is shown of a program besides its text, after optimizing. -/
def shown (plan : Plan) (trace : String) (p : Program) : Except Fault String := do
  let dump ← if plan.dump then Report.dumpProgram p else .ok ""
  .ok ((if plan.quiet then "" else trace) ++ dump)

/-- The result for a program, and the entry to be stored for it. -/
def optimized (plan : Plan) (path : String) (s : Session) : Except Fault (Entry × Result) := do
  let trace := Report.traceText plan.color s.trace.toList
  let text ← s.program.text
  let besides ← shown plan trace s.program
  let stats := Counts.ofStats s.stats
  .ok ({ name := bytes path, output := bytes text, trace := bytes trace, stats := stats },
    { path := path, output := bytes text, trace := bytes besides, log := s.log.toList,
      stats := stats })

/-- The second step: loads and optimizes the program. -/
def compute (plan : Plan) (path : String) (source : ByteArray) (key : Key) : Worker :=
  match Program.load path source with
  | .error e => failed path (.load e)
  | .ok p =>
    match optimize plan.options p with
    | (.error f, s) => .done { path := path, log := s.log.toList, failure := some (.fault f) }
    | (.ok (.error e), s) =>
      .done { path := path, log := s.log.toList, failure := some (.verify e) }
    | (.ok (.ok ()), s) =>
      match optimized plan path s with
      | .error f => .done { path := path, log := s.log.toList, failure := some (.fault f) }
      | .ok (entry, result) => .computed key entry result

/-- The third step: stores the result. -/
def store (plan : Plan) (t : FileTree) (key : Key) (entry : Entry) (result : Result) :
    Worker × FileTree :=
  match plan.cache with
  | none => (.done result, t)
  | some c =>
    match c.put t key entry with
    | (.ok (), t) => (.done result, t)
    | (.error e, t) => (.done { result with failure := some (.cache e) }, t)

/-- One step of a worker. -/
def step (plan : Plan) (t : FileTree) : Worker → Worker × FileTree
  | .fresh path => (lookUp plan t path, t)
  | .missed path source key => (compute plan path source key, t)
  | .computed key entry result => store plan t key entry result
  | .done result => (.done result, t)

/-- The result of a worker that is done. -/
def result? : Worker → Option Result
  | .done r => some r
  | _ => none

/-- The path of a worker's file. -/
def path : Worker → String
  | .fresh path => path
  | .missed path _ _ => path
  | .computed _ _ r => r.path
  | .done r => r.path

/-- All steps of a worker. -/
def run (plan : Plan) (t : FileTree) (path : String) : Result × FileTree :=
  let (w, t) := step plan t (.fresh path)
  let (w, t) := step plan t w
  let (w, t) := step plan t w
  (w.result?.getD { path := path }, t)

/-- The workers of several files, one after the other. -/
def runAll (plan : Plan) (t : FileTree) : List String → List Result × FileTree
  | [] => ([], t)
  | path :: rest =>
    let (r, t) := run plan t path
    let (rs, t) := runAll plan t rest
    (r :: rs, t)

end Worker

end Midend.Cli
