import Midend.Cli.Run

/-!
# The program

The files that a command line names are read, the command line is carried out on them, and what it
changed is written back.
-/

namespace Midend.Cli

open Files (FileTree)

/-- Adds what is at a path to a tree. -/
def readPath (t : FileTree) (path : String) : IO FileTree := do
  try
    let content ← IO.FS.readBinFile path
    return (t.write path content).toOption.getD t
  catch e =>
    match e with
    | .inappropriateType .. => return (t.makeDirs path).2
    | _ => return t

/-- Adds what is at paths, and at the directories on the way to them, to a tree. -/
def readPaths (t : FileTree) (paths : List String) : IO FileTree :=
  (paths.flatMap fun p => (Files.steps p).map Files.Step.path).foldlM readPath t

/-- The paths that an argument may name. -/
def argPaths (arg : String) : List String := arg :: (splitEquals arg.toList).2.toList

/-- Writes what is new to the files. -/
def writeChanges (changes : List (String × Files.Node)) : IO Unit := do
  for (path, node) in changes.reverse do
    match node with
    | .directory => IO.FS.createDirAll path
    | .file content => IO.FS.writeBinFile path content

/-- The value of an environment variable, empty if it is not set. -/
def environmentVariable (name : String) : IO String := return (← IO.getEnv name).getD ""

/-- Carries out a command line on the files of the computer.  The result is the exit status. -/
def execute (ctx : Context) (args : List String) : IO UInt32 := do
  let cacheDir := (Cache.defaultDir ctx.env).toOption.toList
  let t ← readPaths {} (cacheDir ++ args.flatMap argPaths)
  let t ← readPaths t (entryFiles ctx t args)
  let (outcome, after) := run ctx t args
  writeChanges (after.changes t)
  (← IO.getStdout).write ⟨outcome.stdout.toArray⟩
  (← IO.getStderr).write ⟨outcome.stderr.toArray⟩
  match outcome.error with
  | none => return 0
  | some e =>
    IO.eprintln s!"error: {e.message}"
    return 1

end Midend.Cli

open Midend in
/-- Carries out a command line. -/
def main (args : List String) : IO UInt32 := do
  let rounds ← Cli.environmentVariable Defaults.roundsKey
  let verify ← Cli.environmentVariable Defaults.verifyKey
  match Defaults.ofEnvironment rounds verify with
  | .error e =>
    IO.eprintln e.message
    return 2
  | .ok defaults =>
    let env := ⟨← Cli.environmentVariable "XDG_CACHE_HOME", ← Cli.environmentVariable "HOME"⟩
    Cli.execute { env := env, defaults := defaults, toolchain := "lean" } args
