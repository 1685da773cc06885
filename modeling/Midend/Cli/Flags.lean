import Midend.Text.Numeral
import Midend.Text.Quoted

/-!
# Flags

Arguments that begin with a dash set flags: `--name=value`, `--name value`, or `--name` alone for a
switch.  Some flags have a letter: `-x value`, `-xvalue` or `-x=value`, and switches can share a
dash.  Flags and other arguments can be mixed; behind `--` there are no flags.

## Main definitions

* `Settings`: what the flags set.
* `Flag`: a flag, and what it does to the settings.
* `parseArgs`: reads arguments.
* `FlagError`: why arguments are refused.
-/

namespace Midend.Cli

/-- What the flags set. -/
structure Settings where
  /-- When to colour the output. -/
  color : String := "auto"
  /-- Leave out the trace and warnings? -/
  quiet : Bool := false
  /-- Log every change? -/
  verbose : Bool := false
  /-- Only explain? -/
  help : Bool := false
  /-- Only tell the version? -/
  version : Bool := false
  /-- The limit for the peephole rounds, if one was given. -/
  rounds : Option Int := none
  /-- Leave out the peephole passes, if that was said? -/
  noPeephole : Option Bool := none
  /-- Leave out constant propagation, if that was said? -/
  noConstProp : Option Bool := none
  /-- Verify the result, if that was said? -/
  verify : Option Bool := none
  /-- The configuration file; none if empty. -/
  config : String := ""
  /-- Use the cache? -/
  cache : Bool := false
  /-- The directory of the cache; the usual one if empty. -/
  cacheDir : String := ""
  /-- Show the reaching stores? -/
  dumpDataflow : Bool := false
  /-- The file for the result; the output if empty. -/
  output : String := ""
  /-- The number of workers. -/
  jobs : Int := 0
  /-- Leave out what the choices mean? -/
  noDescriptions : Bool := false
  /-- The names of the flags that were given. -/
  given : List String := []
  deriving DecidableEq, Repr, Inhabited

/-- What a flag does with its value. -/
inductive Setter where
  /-- Any text is a value. -/
  | text (set : String → Settings → Settings)
  /-- The value is a truth value, and may be left out. -/
  | switch (set : Bool → Settings → Settings)
  /-- The value is a number. -/
  | number (set : Int → Settings → Settings)

/-- A flag. -/
structure Flag where
  /-- Its name. -/
  name : String
  /-- Its letter. -/
  letter : Option Char := none
  /-- What it is for. -/
  summary : String
  /-- What it does. -/
  setter : Setter

/-- The name of a flag, with its letter. -/
def Flag.label (f : Flag) : String :=
  match f.letter with
  | some c => s!"-{c}, --{f.name}"
  | none => s!"--{f.name}"

/-- May the value be left out? -/
def Flag.isSwitch (f : Flag) : Bool :=
  match f.setter with
  | .switch _ => true
  | _ => false

/-- Why arguments are refused. -/
inductive FlagError where
  /-- The argument is no flag. -/
  | badForm (arg : String)
  /-- There is no flag of this name. -/
  | unknown (name : String)
  /-- There is no flag of this letter. -/
  | unknownLetter (c : Char) (letters : String)
  /-- The value is missing. -/
  | noValue (name : String)
  /-- The value of a letter is missing. -/
  | noLetterValue (c : Char) (letters : String)
  /-- The value of a switch is no truth value. -/
  | badSwitch (value label : String)
  /-- The value is no number. -/
  | badNumber (value label : String) (why : Text.NumeralError)
  deriving DecidableEq, Repr, Inhabited

/-- A letter in a message.  Letters are bytes.  A byte beyond ASCII is written as a character of two
bytes, of which only the first is shown, and that is always the same. -/
def letterText (c : Char) : String :=
  Text.quoteChar (if c.toNat < 0x80 then c else 'Ã')

/-- The wording of an error. -/
def FlagError.message : FlagError → String
  | .badForm arg => s!"bad flag syntax: {arg}"
  | .unknown name => s!"unknown flag: --{name}"
  | .unknownLetter c letters => s!"unknown shorthand flag: {letterText c} in -{letters}"
  | .noValue name => s!"flag needs an argument: --{name}"
  | .noLetterValue c letters => s!"flag needs an argument: {letterText c} in -{letters}"
  | .badSwitch value label =>
    s!"invalid argument {Text.quote value} for {Text.quote label} flag: " ++
      s!"strconv.ParseBool: parsing {Text.quote value}: invalid syntax"
  | .badNumber value label why =>
    s!"invalid argument {Text.quote value} for {Text.quote label} flag: " ++
      s!"strconv.ParseInt: parsing {Text.quote value}: {why.message}"

/-- Sets a flag to a value. -/
def Flag.apply (f : Flag) (value : String) (s : Settings) : Except FlagError Settings :=
  let s := { s with given := f.name :: s.given }
  match f.setter with
  | .text set => .ok (set value s)
  | .switch set =>
    match Text.readBool value with
    | some b => .ok (set b s)
    | none => .error (.badSwitch value f.label)
  | .number set =>
    match Text.readSigned value with
    | .ok n => .ok (set n.toInt s)
    | .error why => .error (.badNumber value f.label why)

/-- The flag of a name. -/
def findFlag? (flags : List Flag) (name : String) : Option Flag :=
  flags.find? fun f => f.name = name

/-- The flag of a letter. -/
def findLetter? (flags : List Flag) (c : Char) : Option Flag :=
  flags.find? fun f => f.letter == some c

/-- Splits a text at the first equals sign. -/
def splitEquals (cs : List Char) : String × Option String :=
  let (name, rest) := cs.span (· != '=')
  (String.ofList name, if rest.isEmpty then none else some (String.ofList (rest.drop 1)))

/-- What is still to be done with a flag: nothing, or to take the next argument as its value. -/
inductive Pending where
  /-- The flag is set. -/
  | set (s : Settings)
  /-- The next argument is the value of the flag. -/
  | needs (f : Flag) (s : Settings) (complaint : FlagError)

/-- Reads a flag that is given by its name, without the dashes. -/
def longFlag (flags : List Flag) (arg : String) (cs : List Char) (s : Settings) :
    Except FlagError Pending :=
  if cs.head? == some '-' || cs.head? == some '=' then .error (.badForm arg)
  else
    let (name, value) := splitEquals cs
    match findFlag? flags name with
    | none => .error (.unknown name)
    | some f =>
      match value with
      | some v => do
        let s ← f.apply v s
        .ok (.set s)
      | none =>
        if f.isSwitch then do
          let s ← f.apply "true" s
          .ok (.set s)
        else .ok (.needs f s (.noValue name))

/-- Is it a setting for a test runner, without the dash? -/
def isTestSetting (cs : List Char) : Bool := "test.".toList.isPrefixOf cs

/-- Reads the letters behind a dash.  Settings for a test runner are passed over. -/
def letters (flags : List Flag) (s : Settings) : List Char → Except FlagError Pending
  | [] => .ok (.set s)
  | c :: rest =>
    if isTestSetting (c :: rest) then .ok (.set s)
    else match findLetter? flags c with
    | none => .error (.unknownLetter c (String.ofList (c :: rest)))
    | some f =>
      if rest.head? == some '=' && 1 < rest.length then do
        let s ← f.apply (String.ofList (rest.drop 1)) s
        .ok (.set s)
      else if f.isSwitch then do
        let s ← f.apply "true" s
        letters flags s rest
      else if rest.isEmpty then .ok (.needs f s (.noLetterValue c (String.ofList [c])))
      else do
        let s ← f.apply (String.ofList rest) s
        .ok (.set s)

/-- Reads an argument that begins with a dash. -/
def flagArg (flags : List Flag) (arg : String) (cs : List Char) (s : Settings) :
    Except FlagError Pending :=
  match cs with
  | '-' :: name => longFlag flags arg name s
  | cs => letters flags s cs

/-- Reads arguments: what the flags set, and the other arguments.  `pending` is a flag that takes
the next argument as its value. -/
def parseArgsFrom (flags : List Flag) (pending : Option (Flag × FlagError)) (s : Settings) :
    List String → Except FlagError (Settings × List String)
  | [] =>
    match pending with
    | some (_, complaint) => .error complaint
    | none => .ok (s, [])
  | arg :: rest =>
    match pending with
    | some (f, _) => do
      let s ← f.apply arg s
      parseArgsFrom flags none s rest
    | none =>
      match arg.toList with
      | '-' :: c :: cs =>
        if arg = "--" then .ok (s, rest)
        else do
          match ← flagArg flags arg (c :: cs) s with
          | .set s => parseArgsFrom flags none s rest
          | .needs f s complaint => parseArgsFrom flags (some (f, complaint)) s rest
      | _ => do
        let (s, more) ← parseArgsFrom flags none s rest
        .ok (s, arg :: more)

/-- Reads arguments: what the flags set, and the other arguments. -/
def parseArgs (flags : List Flag) (args : List String) :
    Except FlagError (Settings × List String) :=
  parseArgsFrom flags none {} args

end Midend.Cli
