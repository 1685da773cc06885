import Midend.Cli.Flags
import Midend.Text.LowerCase

/-!
# Subcommands

The first argument that is no flag names what to do, and sometimes the next one says it more
closely.  To tell them from the values of flags, the flags that stand before them are looked at:
every flag but a switch takes the next argument as its value, if at least one more follows that
one.

## Main definitions

* `Subcommand`: what there is to do.
* `Subcommand.flags`: its flags.
* `findSubcommand`: the subcommand of a command line, and the other arguments.
* `suggestions`: the subcommands that could be meant by a word.
-/

namespace Midend.Cli

/-- A shell that can complete command lines. -/
inductive CommandShell where
  /-- The Bourne Again shell. -/
  | bash
  /-- The Z shell. -/
  | zsh
  /-- The friendly interactive shell. -/
  | fish
  /-- PowerShell. -/
  | powershell
  deriving DecidableEq, Repr, Inhabited

/-- The name of a shell. -/
def CommandShell.name : CommandShell → String
  | .bash => "bash"
  | .zsh => "zsh"
  | .fish => "fish"
  | .powershell => "powershell"

/-- All shells, by name. -/
def CommandShell.all : List CommandShell := [.bash, .fish, .powershell, .zsh]

/-- What there is to do. -/
inductive Subcommand where
  /-- Optimize programs. -/
  | optimize
  /-- List the global variables of a program. -/
  | globals
  /-- Verify a program. -/
  | check
  /-- Check the names in a tree. -/
  | checkScope
  /-- Tell the version. -/
  | version
  /-- Explain a subcommand. -/
  | help
  /-- Prepare a shell to complete command lines. -/
  | completion
  /-- Prepare the given shell to complete command lines. -/
  | completionFor (shell : CommandShell)
  /-- Answer a shell how a command line could go on, perhaps with what the choices mean.  Nobody is
  told of this one. -/
  | complete (described : Bool)
  deriving DecidableEq, Repr, Inhabited

/-- The name of a subcommand. -/
def Subcommand.name : Subcommand → String
  | .optimize => "opt"
  | .globals => "globals"
  | .check => "check"
  | .checkScope => "check-scope"
  | .version => "version"
  | .help => "help"
  | .completion => "completion"
  | .completionFor shell => shell.name
  | .complete _ => "__complete"

/-- The words that call a subcommand. -/
def Subcommand.path : Subcommand → String
  | .completionFor shell => s!"{Subcommand.completion.name} {shell.name}"
  | .complete false => "__completeNoDesc"
  | c => c.name

/-- What a subcommand is for. -/
def Subcommand.summary : Subcommand → String
  | .optimize => "Optimize one or more modules and print the result"
  | .globals => "List the global variables of a module"
  | .check => "Parse and verify a module without optimizing it"
  | .checkScope => "Check that every variable of a TOML syntax tree is declared before use"
  | .version => "Show the version of optir"
  | .help => "Help about any command"
  | .completion => "Generate the autocompletion script for the specified shell"
  | .completionFor shell => s!"Generate the autocompletion script for {shell.name}"
  | .complete _ => "Request shell completion choices for the specified command-line"

/-- The subcommands that are called by one word, as far as they are told of. -/
def Subcommand.all : List Subcommand :=
  [.optimize, .globals, .check, .checkScope, .version, .help, .completion]

/-- The subcommands that come next behind a subcommand, or behind none, by name. -/
def Subcommand.next : Option Subcommand → List Subcommand
  | none => [.check, .checkScope, .completion, .globals, .help, .optimize, .version]
  | some .completion => CommandShell.all.map .completionFor
  | some _ => []

/-- The name of the program. -/
def programName : String := "optir"

/-! ### Flags -/

/-- The flags of every subcommand, by name. -/
def globalFlags : List Flag :=
  [⟨"color", none, "colorize output (auto|on|off)", .text fun v s => { s with color := v }⟩,
   ⟨"quiet", none, "suppress the trace and warnings", .switch fun v s => { s with quiet := v }⟩,
   ⟨"verbose", none, "log every change made by the passes",
    .switch fun v s => { s with verbose := v }⟩]

/-- The flag for explanations of what has the given name. -/
def helpFlag (name : String) : Flag :=
  ⟨"help", some 'h', s!"help for {name}", .switch fun v s => { s with help := v }⟩

/-- The flags without a subcommand, by name. -/
def rootFlags : List Flag :=
  [helpFlag programName,
   ⟨"version", some 'v', s!"version for {programName}", .switch fun v s => { s with version := v }⟩]

/-- The flags for optimizing, by name. -/
def optimizeFlags : List Flag :=
  [⟨"cache", none, "reuse results from the on-disk cache",
    .switch fun v s => { s with cache := v }⟩,
   ⟨"cache-dir", none, "cache directory (default $XDG_CACHE_HOME/optir)",
    .text fun v s => { s with cacheDir := v }⟩,
   ⟨"config", none, "read options from a TOML file", .text fun v s => { s with config := v }⟩,
   ⟨"dump-dataflow", none, "dump the reaching stores of every block after optimizing",
    .switch fun v s => { s with dumpDataflow := v }⟩,
   helpFlag Subcommand.optimize.name,
   ⟨"jobs", none, "max parallel workers (0=auto)", .number fun v s => { s with jobs := v }⟩,
   ⟨"no-constprop", none, "disable constant propagation",
    .switch fun v s => { s with noConstProp := some v }⟩,
   ⟨"no-peephole", none, "disable DCE, constant folding and CSE",
    .switch fun v s => { s with noPeephole := some v }⟩,
   ⟨"output", some 'o', "write the result to a file, single input only",
    .text fun v s => { s with output := v }⟩,
   ⟨"rounds", none, "maximum number of peephole rounds",
    .number fun v s => { s with rounds := some v }⟩,
   ⟨"verify", none, "verify the IR after optimizing",
    .switch fun v s => { s with verify := some v }⟩]

/-- The flag of the subcommands for shells. -/
def descriptionsFlag : Flag :=
  ⟨"no-descriptions", none, "disable completion descriptions",
   .switch fun v s => { s with noDescriptions := v }⟩

/-- The flags that a subcommand, or none, has of its own, by name. -/
def Subcommand.ownFlags : Option Subcommand → List Flag
  | none => rootFlags
  | some .optimize => optimizeFlags
  | some (.completionFor shell) => [helpFlag shell.name, descriptionsFlag]
  | some c => [helpFlag c.name]

/-- The flags of a subcommand, or of none. -/
def Subcommand.flags (c : Option Subcommand) : List Flag := globalFlags ++ Subcommand.ownFlags c

/-! ### Suggestions -/

/-- The next row of the table of edit distances, behind a first value, for one more letter. -/
def distanceRow (c : UInt8) (left : Nat) : List UInt8 → List Nat → List Nat
  | t :: ts, diagonal :: above :: row =>
    let d := if c = t then diagonal else min (min above left) diagonal + 1
    d :: distanceRow c d ts (above :: row)
  | _, _ => []

/-- The rows of the table of edit distances, from the given row on; the last one is the result. -/
def distanceRows (target : List UInt8) : List UInt8 → List Nat → List Nat
  | [], row => row
  | c :: rest, row =>
    let first := row.headD 0 + 1
    distanceRows target rest (first :: distanceRow c first target row)

/-- How many bytes have to be inserted, dropped or replaced to get from one text to the other. -/
def editDistance (s t : String) : Nat :=
  let target := t.toUTF8.data.toList
  (distanceRows target s.toUTF8.data.toList (List.range (target.length + 1))).getLastD 0

/-- Could a word be meant for a name?  It could if in lower case it is at most two edits away, or
if the name begins with it. -/
def isSimilar (word name : String) : Bool :=
  let word := Text.toLowerCase word
  editDistance word name ≤ 2 || word.toList.isPrefixOf name.toList

/-- The names that could be meant by a word. -/
def suggestions (word : String) : List String :=
  ((Subcommand.all.filter (· != .help)).map Subcommand.name).filter (isSimilar word)

/-- The names that could be meant by a word, as the end of a message. -/
def suggestionText (word : String) : String :=
  match suggestions word with
  | [] => ""
  | names => "\n\nDid you mean this?\n" ++ String.join (names.map fun n => s!"\t{n}\n")

/-! ### Finding the subcommand -/

/-- Does an argument take the next one as its value?  A flag that is not known does. -/
def takesValue (arg : String) : Bool :=
  match arg.toList with
  | '-' :: '-' :: name =>
    let flag? := findFlag? globalFlags (String.ofList name)
    !name.contains '=' && !(flag?.map Flag.isSwitch).getD false
  | ['-', c] =>
    c.toNat < 0x80 && c != '=' && !((findLetter? globalFlags c).map Flag.isSwitch).getD false
  | _ => false

/-- The arguments that are neither flags nor values of flags. -/
def plainArgs : List String → List String
  | [] => []
  | arg :: rest =>
    if arg = "--" then []
    else if takesValue arg then
      match rest with
      | _ :: next :: more => plainArgs (next :: more)
      | _ => []
    else if arg = "" || arg.toList.head? == some '-' then plainArgs rest
    else arg :: plainArgs rest

/-- Drops the first argument that is the given word and neither a flag nor the value of one. -/
def dropWord (word : String) : List String → List String
  | [] => []
  | arg :: rest =>
    if arg = "--" then arg :: rest
    else if takesValue arg then
      match rest with
      | value :: more => arg :: value :: dropWord word more
      | [] => [arg]
    else if arg = word then rest
    else arg :: dropWord word rest

/-- A word that names no subcommand. -/
structure UnknownSubcommand where
  /-- The word. -/
  word : String
  deriving DecidableEq, Repr, Inhabited

/-- The wording of the complaint. -/
def UnknownSubcommand.message (e : UnknownSubcommand) : String :=
  s!"unknown command {Text.quote e.word} for {Text.quote programName}" ++ suggestionText e.word

/-- The subcommands that nobody is told of. -/
def Subcommand.hidden : List Subcommand := [.complete true, .complete false]

/-- The subcommand that a word calls. -/
def Subcommand.called? (word : String) : Option Subcommand :=
  (Subcommand.all ++ Subcommand.hidden).find? fun c => c.path = word

/-- The subcommand that is called behind one that was found, with the other arguments. -/
def findNext (c : Subcommand) (args : List String) : Subcommand × List String :=
  match plainArgs args with
  | [] => (c, args)
  | word :: _ =>
    match (Subcommand.next (some c)).find? fun d => d.name = word with
    | some d => (d, dropWord word args)
    | none => (c, args)

/-- The subcommand of a command line, if there is one, and the other arguments. -/
def findSubcommand (args : List String) :
    Except UnknownSubcommand (Option Subcommand × List String) :=
  match plainArgs args with
  | [] => .ok (none, args)
  | word :: _ =>
    match Subcommand.called? word with
    | some c =>
      let (c, args) := findNext c (dropWord word args)
      .ok (some c, args)
    | none => .error ⟨word⟩

end Midend.Cli
