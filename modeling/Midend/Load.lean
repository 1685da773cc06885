import Midend.Files.Tree
import Midend.Source.Resolve

/-!
# Loading programs

A program is loaded from its text, or from a file.

## Main definitions

* `Program.load`, `Program.loadFile`: loading.
* `LoadError`: why a program cannot be loaded.
-/

namespace Midend

open Files (FileTree FileError Cause)

/-- Why a program cannot be loaded. -/
inductive LoadFailure where
  /-- The file cannot be read. -/
  | unreadable (cause : Cause)
  /-- The file cannot be read, told with the operation that failed. -/
  | file (e : FileError)
  /-- The text is no program. -/
  | malformed (e : Source.ParseError)
  deriving Repr, Inhabited

/-- A program that cannot be loaded. -/
structure LoadError where
  /-- The name of the program or the path of its file. -/
  path : String
  /-- The reason. -/
  failure : LoadFailure
  deriving Repr, Inhabited

/-- The wording of a reason. -/
def LoadFailure.message : LoadFailure → String
  | .unreadable c => c.message
  | .file e => e.message
  | .malformed e => e.message

/-- The wording of an error. -/
def LoadError.message (e : LoadError) : String := s!"cannot load {e.path}: {e.failure.message}"

/-- Loads a program from its text. -/
def Program.load (name : String) (source : ByteArray) : Except LoadError Program :=
  (Program.parse name source).mapError fun e => ⟨name, .malformed e⟩

/-- Loads a program from a file. -/
def Program.loadFile (t : FileTree) (path : String) : Except LoadError Program := do
  let source ← (t.read path).mapError fun e => ⟨path, .unreadable e.cause⟩
  Program.load path source

end Midend
