import Midend.Cli.Subcommand

/-!
# Completing command lines

A shell asks how the last word of a command line could go on.  The words before it tell which
subcommand it belongs to.  A word that begins with a dash goes on as the name of a flag, and a word
behind a flag that needs a value is that value; any other word goes on as the name of a subcommand,
where one is missing.

## Main definitions

* `Completions`: the answer, and its text.
* `Cursor`: what the last word is, by the words before it.
* `completions`: the answer for a command line.
-/

namespace Midend.Cli

/-- A way to go on. -/
structure Choice where
  /-- The whole word. -/
  word : String
  /-- What it means. -/
  summary : String
  deriving DecidableEq, Repr, Inhabited

/-- How a word could go on. -/
structure Completions where
  /-- The ways to go on. -/
  choices : List Choice := []
  /-- Could it be the name of a file as well? -/
  files : Bool := true
  deriving DecidableEq, Repr, Inhabited

/-- A choice on a line of its own. -/
def Choice.line (described : Bool) (c : Choice) : String :=
  if described then s!"{c.word}\t{c.summary}\n" else s!"{c.word}\n"

/-- The answer as a shell reads it: the choices, and what to do besides. -/
def Completions.text (described : Bool) (c : Completions) : String :=
  String.join (c.choices.map (Choice.line described)) ++ if c.files then ":0\n" else ":4\n"

/-- What a person is told about the answer. -/
def Completions.note (c : Completions) : String :=
  let directive := if c.files then "ShellCompDirectiveDefault" else "ShellCompDirectiveNoFileComp"
  s!"Completion ended with directive: {directive}\n"

/-! ### What the last word is -/

/-- What the last word is. -/
structure Cursor where
  /-- The flag that the word is the value of. -/
  flag? : Option Flag := none
  /-- The words before it, without that flag. -/
  before : List String
  /-- The word, or the value in it. -/
  word : String
  /-- Would it be the value of a flag that there is not? -/
  unknownFlag : Bool := false

/-- Does a text begin with another? -/
def startsWith (s start : String) : Bool := start.toList.isPrefixOf s.toList

/-- The last character of a text, as a text. -/
def lastLetter (s : String) : String := String.ofList s.toList.getLast?.toList

/-- The name or the letter of the flag that a word gives, without its value.  Letters can share a
dash; the last one counts. -/
def flagWord (word : String) : String :=
  let front := (splitEquals word.toList).1
  if startsWith front "--" then String.ofList (front.toList.drop 2) else lastLetter front

/-- Does a word give a flag? -/
def isFlagWord (word : String) : Bool :=
  match word.toList with
  | '-' :: '-' :: rest => !rest.isEmpty
  | '-' :: rest => !rest.isEmpty
  | _ => false

/-- The flag of a name or, if that is one letter, of a letter. -/
def flagCalled? (flags : List Flag) (name : String) : Option Flag :=
  match name.toList with
  | [c] => findLetter? flags c
  | _ => findFlag? flags name

/-- The cursor at a word that may be the value of the flag before it.  `attached` is the part of the
word behind an equals sign; it is taken for a value even behind a switch. -/
def Cursor.behind (flags : List Flag) (before : List String) (word : String)
    (attached : Option String) : Cursor :=
  let value := attached.getD word
  let plain : Cursor := { before, word := value }
  match before.getLast? with
  | none => plain
  | some last =>
    if !isFlagWord last || last.toList.contains '=' then plain
    else
      match flagCalled? flags (flagWord last) with
      | none => { before, word, unknownFlag := true }
      | some f =>
        if f.isSwitch && attached.isNone then plain
        else { flag? := some f, before := before.dropLast, word := value }

/-- The cursor at the last word of a command line. -/
def Cursor.at (flags : List Flag) (before : List String) (word : String) : Cursor :=
  if !startsWith word "-" then .behind flags before word none
  else
    match (splitEquals word.toList).2 with
    | none => { before, word }
    | some value =>
      if flagWord word = "" then .behind flags before word (some value)
      else
        match flagCalled? flags (flagWord word) with
        | none => { before, word, unknownFlag := true }
        | some f => { flag? := some f, before, word := value }

/-! ### How it could go on -/

/-- The words for a flag that begin with the given text. -/
def Flag.choices (start : String) (f : Flag) : List Choice :=
  let words := s!"--{f.name}" :: f.letter.toList.map fun c => s!"-{c}"
  (words.filter (startsWith · start)).map (⟨·, f.summary⟩)

/-- The flags of a subcommand, or of none, in the order in which they are offered. -/
def offeredFlags (c : Option Subcommand) : List Flag :=
  if c.isNone then (Subcommand.flags c).mergeSort fun f g => f.name ≤ g.name
  else Subcommand.flags c

/-- The subcommands behind one, or behind none, whose names begin with the given text. -/
def subcommandChoices (c : Option Subcommand) (start : String) : List Choice :=
  ((Subcommand.next c).filter fun d => startsWith d.name start).map fun d => ⟨d.name, d.summary⟩

/-- The other arguments of a subcommand that begin with the given text, if it is known what they
can be. -/
def argChoices? (c : Option Subcommand) (args : List String) (start : String) :
    Option (List Choice) :=
  match c with
  | some .help =>
    match findSubcommand args with
    | .ok (topic, _) => some (subcommandChoices topic start)
    | .error _ => some []
  | some .completion | some (.completionFor _) => some []
  | _ => none

/-- How a word that is not the name of a flag could go on. -/
def Cursor.argCompletions (cur : Cursor) (c : Option Subcommand) (args : List String)
    (flagsEnded : Bool) : Completions :=
  let expected := if cur.flag?.isNone && args.isEmpty then Subcommand.next c else []
  let named := if expected.isEmpty then [] else subcommandChoices c cur.word
  match if cur.flag?.isSome && !flagsEnded then none else argChoices? c args cur.word with
  | some more => ⟨named ++ more, false⟩
  | none => ⟨named, expected.isEmpty⟩

/-- How the word at a cursor could go on, by the flags and arguments before it.  `flagsEnded` tells
that there are no flags any more. -/
def Cursor.completions (cur : Cursor) (c : Option Subcommand) (s : Settings) (args : List String)
    (flagsEnded : Bool) : Completions :=
  if cur.unknownFlag && !flagsEnded then {}
  else if s.given.contains "help" || s.given.contains "version" then { files := false }
  else if cur.flag?.isNone && startsWith cur.word "-" && !cur.word.toList.contains '=' &&
      !flagsEnded then
    let flags := (offeredFlags c).filter fun f => !s.given.contains f.name
    ⟨flags.flatMap (Flag.choices cur.word), false⟩
  else cur.argCompletions c args flagsEnded

/-- How the last of some words could go on behind a subcommand, or behind none. -/
def wordCompletions (c : Option Subcommand) (before : List String) (word : String) : Completions :=
  match c with
  | some (.complete _) => Cursor.completions { before, word } c {} before false
  | _ =>
    let flags := Subcommand.flags c
    let cur := Cursor.at flags before word
    match parseArgs flags cur.before with
    | .error _ => {}
    | .ok (s, args) =>
      let flagsEnded :=
        match parseArgs flags (cur.before ++ ["--"]) with
        | .ok (_, more) => args.length < more.length
        | .error _ => false
      cur.completions c s args flagsEnded

/-- How the last word of a command line could go on. -/
def completions (args : List String) : Completions :=
  match findSubcommand args.dropLast with
  | .error _ => {}
  | .ok (c, before) => wordCompletions c before (args.getLast?.getD "")

end Midend.Cli
