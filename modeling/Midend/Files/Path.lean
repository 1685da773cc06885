/-!
# Paths

A path is written as names between slashes.  It can be tidied without looking at any file: empty
names and single dots are dropped, and two dots drop the name before them.

## Main definitions

* `names`: the names of a path.
* `tidy`: the shortest path that means the same.
* `joinPaths`: paths one behind the other.
* `steps`: the names of a path, each with the path up to it.
* `maxNameBytes`, `maxPathBytes`: the longest name and the longest path.
-/

namespace Midend.Files

/-- The pieces of a text between slashes. -/
def splitSlashes : List Char → List (List Char)
  | [] => [[]]
  | c :: rest =>
    if c = '/' then [] :: splitSlashes rest
    else
      match splitSlashes rest with
      | piece :: more => (c :: piece) :: more
      | [] => [[c]]

/-- The names of a path, the empty ones included. -/
def names (path : String) : List String := (splitSlashes path.toList).map String.ofList

/-- Does a path start at the root of all files? -/
def isAbsolute (path : String) : Bool := path.toList.head? == some '/'

/-- The names of a tidy path, the last one first. -/
def tidyNames (absolute : Bool) : List String → List String → List String
  | done, [] => done
  | done, n :: rest =>
    if n = "" || n = "." then tidyNames absolute done rest
    else if n = ".." then
      match done with
      | d :: outer =>
        if d = ".." then tidyNames absolute (n :: done) rest else tidyNames absolute outer rest
      | [] => tidyNames absolute (if absolute then [] else [n]) rest
    else tidyNames absolute (n :: done) rest

/-- The shortest path that means the same. -/
def tidy (path : String) : String :=
  let absolute := isAbsolute path
  let text := "/".intercalate (tidyNames absolute [] (names path)).reverse
  if absolute then "/" ++ text else if text = "" then "." else text

/-- Paths one behind the other, tidied. -/
def joinPaths (paths : List String) : String :=
  match paths.filter (· != "") with
  | [] => ""
  | ps => tidy ("/".intercalate ps)

/-- Does a path end in a slash? -/
def endsInSlash (path : String) : Bool := path.toList.getLast? == some '/'

/-- The names in front of the last one that is not empty, and an empty one that asks for a
directory there. -/
def outerNames (path : String) : List String :=
  (((names path).reverse.dropWhile (· = "")).drop 1).reverse ++ [""]

/-! ### Steps -/

/-- A step on the way that a path goes. -/
structure Step where
  /-- The path up to the slash before the next name. -/
  path : String
  /-- The name that leads to where the step ends. -/
  name : String
  deriving DecidableEq, Repr, Inhabited

/-- The steps behind `text`, which ends in the name `last` and perhaps in slashes after it.  An
empty `last` tells that there was no name so far. -/
def stepsFrom (text last : String) : List String → List Step
  | [] => if last = "" then [] else [⟨text, last⟩]
  | n :: rest =>
    let longer := text ++ "/" ++ n
    if n = "" then stepsFrom longer last rest
    else if last = "" then stepsFrom longer n rest
    else ⟨text, last⟩ :: stepsFrom longer n rest

/-- The steps of a path, one for each name that is not empty.  The last one has the whole path. -/
def steps (path : String) : List Step :=
  match names path with
  | [] => []
  | n :: rest => stepsFrom n n rest

/-! ### Limits -/

/-- How many bytes a name may have. -/
def maxNameBytes : Nat := 255

/-- How many bytes a path may have. -/
def maxPathBytes : Nat := 4095

end Midend.Files
