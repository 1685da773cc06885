import Midend.Cli.Completion
import Midend.Cli.Worker
import Midend.Config
import Midend.Report.LogLine
import Midend.Scope.Document

/-!
# The command line

A command line is carried out on a tree of files.  The outcome is what is written to the two output
channels, and an error if the command failed.

## Main definitions

* `Context`: what a command line depends on besides its arguments and the files.
* `Outcome`: what comes out.
* `CliError`: why a command fails.
* `optimizeBy`: the command that optimizes programs, whatever order its workers work in.
* `run`: carries out a command line.
-/

namespace Midend.Cli

open Files (FileTree FileError)
open Cache (CacheError)

/-- What a command line depends on besides its arguments and the files. -/
structure Context where
  /-- The environment variables for the place of the cache. -/
  env : Cache.Environment := {}
  /-- The options before anybody sets them. -/
  defaults : Defaults := {}
  /-- Does the error channel lead to a terminal? -/
  terminal : Bool := false
  /-- What the program was built with. -/
  toolchain : String := ""
  deriving Inhabited

/-- Why a command fails. -/
inductive CliError where
  /-- There is no such subcommand. -/
  | unknownSubcommand (e : UnknownSubcommand)
  /-- A flag is wrong. -/
  | flag (e : FlagError)
  /-- There are too few arguments. -/
  | tooFewArgs (least given : Nat)
  /-- There is another number of arguments than needed. -/
  | wrongArgs (needed given : Nat)
  /-- There is an argument where none is needed. -/
  | superfluous (arg : String) (command : Subcommand)
  /-- There is no such way to colour the output. -/
  | colorMode (mode : String)
  /-- One file was named for several results. -/
  | severalInputs
  /-- The configuration file is refused. -/
  | config (path : String) (e : ConfigError)
  /-- The limit for the rounds is too low. -/
  | tooFewRounds (n : Int)
  /-- The cache cannot be opened. -/
  | openCache (e : CacheError)
  /-- An operation on files failed. -/
  | file (e : FileError)
  /-- Some programs have no result. -/
  | failed (count total : Nat)
  /-- A program cannot be loaded. -/
  | load (e : LoadError)
  /-- A program breaks the rules. -/
  | violations (path : String) (report : List (String × List Violation))
  /-- A file describes no tree. -/
  | tree (path : String) (e : Scope.TreeError)
  /-- A name in a tree is not declared. -/
  | scope (path : String) (e : Scope.CheckError)
  deriving Inhabited

/-- The wording of an error. -/
def CliError.message : CliError → String
  | .unknownSubcommand e => e.message
  | .flag e => e.message
  | .tooFewArgs least given => s!"requires at least {least} arg(s), only received {given}"
  | .wrongArgs needed given => s!"accepts {needed} arg(s), received {given}"
  | .superfluous arg command =>
    let label := s!"{programName} {command.path}"
    s!"unknown command {Text.quote arg} for {Text.quote label}"
  | .colorMode mode => s!"unsupported color mode {Text.quote mode} (must be auto, on or off)"
  | .severalInputs => "-o requires exactly one input file"
  | .config path e => s!"{path}: {e.message}"
  | .tooFewRounds n => s!"--rounds must be at least 1, got {n}"
  | .openCache e => s!"failed to open cache: {e.message}"
  | .file e => e.message
  | .failed count total => s!"{count} of {total} module(s) failed"
  | .load e => e.message
  | .violations path report => s!"{path}: {reportText report}"
  | .tree path e => s!"{path}: {e.message}"
  | .scope path e => s!"{path}: {e.message}"

/-- What comes out of a command line. -/
structure Outcome where
  /-- What is written to the output. -/
  stdout : List UInt8 := []
  /-- What is written to the error channel. -/
  stderr : List UInt8 := []
  /-- The error, if the command failed. -/
  error : Option CliError := none
  deriving Inhabited

/-- A command line in progress: it writes, changes files, and may fail. -/
abbrev Shell := ExceptT CliError (StateM (Outcome × FileTree))

namespace Shell

/-- Writes to the output. -/
def print (s : List UInt8) : Shell Unit :=
  modify fun (o, t) => ({ o with stdout := o.stdout ++ s }, t)

/-- Writes to the error channel. -/
def complain (s : List UInt8) : Shell Unit :=
  modify fun (o, t) => ({ o with stderr := o.stderr ++ s }, t)

/-- The files as they are now. -/
def files : Shell FileTree := return (← get).2

/-- Replaces the files. -/
def setFiles (t : FileTree) : Shell Unit := modify fun (o, _) => (o, t)

/-- A result that may be an error. -/
def ofExcept {ε α : Type} (f : ε → CliError) : Except ε α → Shell α
  | .ok a => pure a
  | .error e => throw (f e)

/-- What comes out on a tree of files. -/
def outcome (m : Shell Unit) (t : FileTree) : Outcome × FileTree :=
  let (r, o, t) := m.run.run ({}, t)
  match r with
  | .ok () => (o, t)
  | .error e => ({ o with error := some e }, t)

end Shell

/-- The bytes of a text. -/
def bytes (s : String) : List UInt8 := s.toUTF8.data.toList

/-! ### Optimizing -/

/-- The options of a run: the defaults, changed by the configuration file and then by the flags. -/
def resolveOptions (ctx : Context) (s : Settings) (t : FileTree)
    (decode : Config.Decoder := Config.decode) : Except CliError Options := do
  let o := ctx.defaults.options
  let o ←
    if s.config = "" then .ok o
    else
      match Config.loadFile t s.config decode with
      | .ok c => .ok (c.apply o)
      | .error e => .error (.config s.config e)
  let o ←
    match s.rounds with
    | none => .ok o
    | some n => if n < 1 then .error (.tooFewRounds n) else .ok { o with maxRounds := n }
  .ok { o with
    peephole := (s.noPeephole.map not).getD o.peephole
    constProp := (s.noConstProp.map not).getD o.constProp
    verify := s.verify.getD o.verify }

/-- Writes the log if everything is to be logged. -/
def writeLog (s : Settings) (log : List LogRecord) : Shell Unit :=
  if s.verbose then Shell.complain (bytes (String.join (log.map Report.logLine))) else pure ()

/-- The summary of a result. -/
def summary (r : Result) : LogRecord :=
  { level := .info
    message := "optimized"
    attrs := [("file", r.path), ("cached", toString r.cached), ("stats", r.stats.text)] }

/-- Writes a result to the output or to a file. -/
def writeOutput (s : Settings) (text : List UInt8) : Shell Unit := do
  if s.output = "" then Shell.print text
  else
    let t ← Shell.ofExcept .file ((← Shell.files).write s.output ⟨text.toArray⟩)
    Shell.setFiles t

/-- Shows the results in order. -/
def showResults (s : Settings) : List Result → Shell Unit
  | [] => pure ()
  | r :: rest => do
    Shell.complain r.trace
    match r.failure with
    | some f => Shell.complain (bytes (f.message ++ "\n"))
    | none =>
      writeLog s [summary r]
      writeOutput s r.output
    showResults s rest

/-- What the workers are asked to do.  The cache is opened if one is used. -/
def makePlan (ctx : Context) (s : Settings) (color : Bool) (t : FileTree) :
    Except CliError Plan × FileTree :=
  match resolveOptions ctx s t with
  | .error e => (.error e, t)
  | .ok options =>
    let plan : Plan := { options, quiet := s.quiet, dump := s.dumpDataflow, color }
    if s.cache then
      match Cache.openIn ctx.env t s.cacheDir with
      | (.error e, t) => (.error (.openCache e), t)
      | (.ok c, t) => (.ok { plan with cache := some c }, t)
    else (.ok plan, t)

/-- The number of programs without a result. -/
def countFailures (results : List Result) : Nat :=
  (results.filter fun r => r.failure.isSome).length

/-- Shows what came out, and fails if some programs have no result. -/
def reportResults (s : Settings) (results : List Result) : Shell Unit := do
  writeLog s (results.flatMap Result.log)
  showResults s results
  if countFailures results != 0 then throw (.failed (countFailures results) results.length)

/-- Optimizes programs, given a way to have the workers do it. -/
def optimizeBy (work : Plan → FileTree → List String → List Result × FileTree) (ctx : Context)
    (s : Settings) (color : Bool) (paths : List String) : Shell Unit := do
  if s.output != "" && paths.length != 1 then throw .severalInputs
  let (plan, t) := makePlan ctx s color (← Shell.files)
  Shell.setFiles t
  let (results, t) := work (← Shell.ofExcept id plan) t paths
  Shell.setFiles t
  reportResults s results

/-- Optimizes programs, one after the other. -/
def runOptimize : Context → Settings → Bool → List String → Shell Unit := optimizeBy Worker.runAll

/-! ### The other subcommands -/

/-- Lists the global variables of a program. -/
def runGlobals (path : String) : Shell Unit := do
  let p ← Shell.ofExcept .load (Program.loadFile (← Shell.files) path)
  let names := p.globals.cells.toList.map fun g => s!"Global variable name: {g.name}\n"
  Shell.print (bytes (String.join names))

/-- Verifies a program. -/
def runCheck (color : Bool) (path : String) : Shell Unit := do
  let p ← Shell.ofExcept .load (Program.loadFile (← Shell.files) path)
  let report := p.verify
  if !report.isEmpty then throw (.violations path report)
  let n := p.size
  Shell.print (bytes (Report.paintWord color [.green] "ok" ++ s!" {path}: " ++
    s!"{n.functions} function(s), {n.globals} global(s), {n.blocks} block(s), " ++
    s!"{n.instructions} instruction(s)\n"))

/-- Checks the names in a tree. -/
def runCheckScope (color : Bool) (path : String) : Shell Unit := do
  let source ← Shell.ofExcept .file ((← Shell.files).read path)
  let tree ← Shell.ofExcept (.tree path) (Scope.Tree.parse source)
  Shell.ofExcept (.scope path) ((Scope.check tree).run {}).1
  Shell.print (bytes (Report.paintWord color [.green] "ok" ++ s!" {path}\n"))

/-- The version of the program. -/
def versionText : String := "0.1.0-dev"

/-- Tells the version. -/
def runVersion (ctx : Context) (color : Bool) : Shell Unit :=
  Shell.print (bytes (s!"{programName} " ++
    Report.paintWord color [.yellow, .bold] versionText ++ s!" ({ctx.toolchain})\n"))

/-- A short explanation. -/
def usage : String :=
  s!"Usage:\n  {programName} [command]\n\nAvailable Commands:\n" ++
    String.join (Subcommand.all.map fun c => s!"  {c.name}\n")

/-! ### Command lines -/

/-- Checks the number of arguments. -/
def checkArgs (c : Subcommand) (args : List String) : Except CliError Unit :=
  match c, args with
  | .optimize, [] | .complete _, [] => .error (.tooFewArgs 1 0)
  | .globals, _ | .check, _ | .checkScope, _ =>
    if args.length = 1 then .ok () else .error (.wrongArgs 1 args.length)
  | .version, arg :: _ | .completionFor _, arg :: _ => .error (.superfluous arg c)
  | _, _ => .ok ()

/-- Is the output coloured? -/
def colorMode (ctx : Context) (mode : String) : Except CliError Bool :=
  if mode = "auto" then .ok ctx.terminal
  else if mode = "on" then .ok true
  else if mode = "off" then .ok false
  else .error (.colorMode mode)

/-- Answers a shell how a command line could go on. -/
def runComplete (described : Bool) (args : List String) : Shell Unit := do
  let answer := completions args
  Shell.print (bytes (answer.text described))
  Shell.complain (bytes answer.note)

/-- Carries out a subcommand whose flags were read. -/
def runWith (ctx : Context) (c : Subcommand) (s : Settings) (args : List String) : Shell Unit := do
  Shell.ofExcept id (checkArgs c args)
  let color ← Shell.ofExcept id (colorMode ctx s.color)
  let path := args.headD ""
  match c with
  | .optimize => runOptimize ctx s color args
  | .globals => runGlobals path
  | .check => runCheck color path
  | .checkScope => runCheckScope color path
  | .version => runVersion ctx color
  | .complete described => runComplete described args
  | .help | .completion | .completionFor _ => Shell.print (bytes usage)

/-- Carries out a subcommand.  The words that a shell asks about are not read as flags. -/
def runSubcommand (ctx : Context) (c : Subcommand) (args : List String) : Shell Unit := do
  match c with
  | .complete _ => runWith ctx c {} args
  | _ =>
    let (s, args) ← Shell.ofExcept .flag (parseArgs (Subcommand.flags (some c)) args)
    if s.help || c = .completion then Shell.print (bytes usage) else runWith ctx c s args

/-- Carries out a command line without a subcommand. -/
def runRoot (args : List String) : Shell Unit := do
  let (s, _) ← Shell.ofExcept .flag (parseArgs (Subcommand.flags none) args)
  if s.version && !s.help then
    Shell.print (bytes s!"{programName} version {versionText}\n")
  else Shell.print (bytes usage)

/-- Carries out a command line. -/
def shell (ctx : Context) (args : List String) : Shell Unit := do
  match ← Shell.ofExcept .unknownSubcommand (findSubcommand args) with
  | (some c, args) => runSubcommand ctx c args
  | (none, args) => runRoot args

/-- Carries out a command line on a tree of files. -/
def run (ctx : Context) (t : FileTree) (args : List String) : Outcome × FileTree :=
  (shell ctx args).outcome t

/-- The cache entries that a command line may read, as far as its other files are known. -/
def entryFiles (ctx : Context) (t : FileTree) (args : List String) : List String :=
  let found := do
    let (c, args) ← (findSubcommand args).mapError CliError.unknownSubcommand
    let (s, paths) ← (parseArgs (Subcommand.flags c) args).mapError .flag
    let options ← resolveOptions ctx s t
    let cache ← (Cache.openIn ctx.env t s.cacheDir).1.mapError .openCache
    pure (paths.filterMap fun path =>
      (t.read path).toOption.map fun source => cache.entryPath (.ofSource source options))
  found.toOption.getD []

end Midend.Cli
