import Midend.Files.Path

/-!
# File trees

A file tree says what is at each place below a working directory: a file with its content, or a
directory.  Places above the working directory and below the root of all files are not part of the
tree as long as nothing is put there.

## Main definitions

* `FileTree`: the files and directories.
* `FileTree.read`, `FileTree.write`, `FileTree.makeDirs`, `FileTree.rename`, `FileTree.remove`,
  `FileTree.removeAll`: the operations.
* `FileError`: why an operation failed, with its wording.
-/

namespace Midend.Files

/-- A place: the names on the way from the working directory. -/
abbrev Place := Array String

/-- What is at a place. -/
inductive Node where
  /-- A file with its content. -/
  | file (content : ByteArray)
  /-- A directory. -/
  | directory
  deriving Inhabited

instance : DecidableEq Node
  | .directory, .directory => isTrue rfl
  | .directory, .file _ => isFalse (by simp)
  | .file _, .directory => isFalse (by simp)
  | .file a, .file b =>
    if h : a.data = b.data then isTrue (congrArg Node.file (ByteArray.ext h))
    else isFalse fun hab => h (congrArg ByteArray.data (Node.file.inj hab))

/-- Why an operation is impossible. -/
inductive Cause where
  /-- There is nothing. -/
  | missing
  /-- Something on the way is a file. -/
  | notADirectory
  /-- There is a directory. -/
  | isADirectory
  /-- There is something already. -/
  | occupied
  /-- The path has a character that no path can have. -/
  | badPath
  /-- A name or the path has too many bytes. -/
  | tooLong
  /-- The device refused. -/
  | refused
  deriving DecidableEq, Repr, Inhabited

/-- The wording of a cause. -/
def Cause.message : Cause → String
  | .missing => "no such file or directory"
  | .notADirectory => "not a directory"
  | .isADirectory => "is a directory"
  | .occupied => "file exists"
  | .badPath => "invalid argument"
  | .tooLong => "file name too long"
  | .refused => "input/output error"

/-- An operation on files that failed. -/
structure FileError where
  /-- The name of the operation. -/
  op : String
  /-- The path it was given. -/
  path : String
  /-- Why it failed. -/
  cause : Cause
  deriving DecidableEq, Repr, Inhabited

/-- The wording of an error. -/
def FileError.message (e : FileError) : String := s!"{e.op} {e.path}: {e.cause.message}"

/-- The files and directories. -/
structure FileTree where
  /-- What is at each place; the first entry for a place counts. -/
  entries : List (Place × Node) := []
  deriving Inhabited

namespace FileTree

/-- Is there a directory at a place whatever the tree holds? -/
def isGiven (p : Place) : Bool := p == #["/"] || p.all (· == "..")

/-- What is at a place. -/
def get? (t : FileTree) (p : Place) : Option Node :=
  if isGiven p then some .directory else t.entries.lookup p

/-- Puts something at a place. -/
def set (t : FileTree) (p : Place) (n : Node) : FileTree :=
  ⟨(p, n) :: t.entries.filter fun e => e.1 != p⟩

/-- Clears a place. -/
def erase (t : FileTree) (p : Place) : FileTree := ⟨t.entries.filter fun e => e.1 != p⟩

/-- Clears a place and all below. -/
def eraseBelow (t : FileTree) (p : Place) : FileTree :=
  ⟨t.entries.filter fun e => !p.isPrefixOf e.1⟩

/-- The place one level up. -/
def parent (p : Place) : Place :=
  if p == #["/"] then p else if p.all (· == "..") then p.push ".." else p.pop

/-- Follows a name from a place.  That needs a directory at the place and a name that is not too
long, but nothing where the name leads. -/
def enter (t : FileTree) (p : Place) (n : String) : Except Cause Place :=
  match t.get? p with
  | none => .error .missing
  | some (.file _) => .error .notADirectory
  | some .directory =>
    if n = "" || n = "." then .ok p
    else if n = ".." then .ok (parent p)
    else if maxNameBytes < n.utf8ByteSize then .error .tooLong
    else .ok (p.push n)

/-- Why a text is no path, whatever the tree holds. -/
def pathFault? (path : String) : Option Cause :=
  if path = "" then some .missing
  else if path.toList.contains '\x00' then some .badPath
  else if maxPathBytes < path.utf8ByteSize then some .tooLong
  else none

/-- Where a path starts. -/
def start (path : String) : Place := if isAbsolute path then #["/"] else #[]

/-- The place that some names of a path lead to. -/
def resolveNames (t : FileTree) (path : String) (ns : List String) : Except Cause Place :=
  match pathFault? path with
  | some c => .error c
  | none => ns.foldlM t.enter (start path)

/-- The place that a path leads to. -/
def resolve (t : FileTree) (path : String) : Except Cause Place := t.resolveNames path (names path)

/-- What a path leads to, if it leads anywhere. -/
def stat? (t : FileTree) (path : String) : Option Node :=
  match t.resolve path with
  | .ok p => t.get? p
  | .error _ => none

/-- The content of a file. -/
def read (t : FileTree) (path : String) : Except FileError ByteArray :=
  match t.resolve path with
  | .error c => .error ⟨"open", path, c⟩
  | .ok p =>
    match t.get? p with
    | none => .error ⟨"open", path, .missing⟩
    | some .directory => .error ⟨"read", path, .isADirectory⟩
    | some (.file b) => .ok b

/-- Writes a file, which need not exist.  A slash at the end asks for a directory, so that the name
before it is not looked up. -/
def write (t : FileTree) (path : String) (content : ByteArray) : Except FileError FileTree :=
  match t.resolveNames path (if endsInSlash path then outerNames path else names path) with
  | .error c => .error ⟨"open", path, c⟩
  | .ok p =>
    if endsInSlash path || t.get? p = some .directory then .error ⟨"open", path, .isADirectory⟩
    else .ok (t.set p (.file content))

/-- Makes the directories that steps from a place lead to, as far as they are missing.  `made` tells
that one was missing before.  A file in the way is known from looking the path up, as long as
nothing had to be made and no slash follows its name; otherwise it is met when a directory is to be
made in its place.  What was made before an error stays. -/
def makeSteps (t : FileTree) (p : Place) (made : Bool) :
    List Step → Except FileError Unit × FileTree
  | [] => (.ok (), t)
  | s :: rest =>
    let failed (c : Cause) : Except FileError Unit × FileTree := (.error ⟨"mkdir", s.path, c⟩, t)
    match pathFault? s.path, t.enter p s.name with
    | some c, _ => failed c
    | none, .error c => failed c
    | none, .ok q =>
      match t.get? q with
      | some .directory => t.makeSteps q made rest
      | some (.file _) => failed (if made || endsInSlash s.path then .occupied else .notADirectory)
      | none => (t.set q .directory).makeSteps q true rest

/-- Makes a directory and those on the way to it, as far as they are missing.  Those that were made
before an error stay. -/
def makeDirs (t : FileTree) (path : String) : Except FileError Unit × FileTree :=
  match steps path, pathFault? path with
  | [], some c => (.error ⟨"mkdir", path, c⟩, t)
  | ss, _ => t.makeSteps (start path) false ss

/-- Removes the file that a path leads to. -/
def remove (t : FileTree) (path : String) : FileTree :=
  match t.resolve path with
  | .ok p => if t.get? p = some .directory then t else t.erase p
  | .error _ => t

/-- Removes what a path leads to, and all below. -/
def removeAll (t : FileTree) (path : String) : FileTree :=
  match t.resolve path with
  | .ok p => t.eraseBelow p
  | .error _ => t

/-- Moves a file.  A directory cannot be replaced. -/
def rename (t : FileTree) (source target : String) : Except FileError FileTree := do
  let content ← t.read source
  match t.resolve source, t.resolve target with
  | .ok p, .ok q =>
    if t.get? q = some .directory then .error ⟨"rename", s!"{source} {target}", .occupied⟩
    else .ok ((t.erase p).set q (.file content))
  | .error c, _ => .error ⟨"rename", s!"{source} {target}", c⟩
  | _, .error c => .error ⟨"rename", s!"{source} {target}", c⟩

/-- A path in a directory that leads nowhere yet. -/
def freshPath (t : FileTree) (dir : String) : String :=
  let candidate (k : Nat) : String := joinPaths [dir, s!"tmp-{k}"]
  let free (k : Nat) : Bool := (t.stat? (candidate k)).isNone
  candidate (((List.range (t.entries.length + 1)).find? free).getD 0)

/-- The path to a place. -/
def placeText (p : Place) : String :=
  match p.toList with
  | "/" :: rest => "/" ++ "/".intercalate rest
  | ns => "/".intercalate ns

/-- Is a place outside the working directory? -/
def isOutside (p : Place) : Bool := p[0]? == some "/" || p[0]? == some ".."

/-- The files below the working directory, with their paths. -/
def files (t : FileTree) : List (String × ByteArray) :=
  t.entries.filterMap fun (p, n) =>
    match n with
    | .file b => if isOutside p then none else some (placeText p, b)
    | .directory => none

/-- What a tree has that another one has not, with the paths. -/
def changes (new old : FileTree) : List (String × Node) :=
  (new.entries.filter fun (p, n) => old.get? p != some n).map fun (p, n) => (placeText p, n)

/-! ### Laws -/

theorem get?_set_self (t : FileTree) (p : Place) (n : Node) (h : isGiven p = false) :
    (t.set p n).get? p = some n := by
  simp [get?, set, h]

theorem get?_set_of_ne (t : FileTree) {p q : Place} (n : Node) (h : q ≠ p) :
    (t.set p n).get? q = t.get? q := by
  unfold get? set
  split
  · rfl
  · have hq : (q == p) = false := by simpa using h
    simp only [List.lookup_cons, hq]
    induction t.entries with
    | nil => rfl
    | cons e rest ih =>
      obtain ⟨r, m⟩ := e
      by_cases hr : r = p
      · subst hr
        simp only [List.filter_cons, bne_self_eq_false, Bool.false_eq_true, ↓reduceIte,
          List.lookup_cons, hq]
        exact ih
      · have hr' : (r != p) = true := by simpa using hr
        simp only [List.filter_cons, hr', ↓reduceIte, List.lookup_cons]
        rw [ih]

end FileTree

end Midend.Files
