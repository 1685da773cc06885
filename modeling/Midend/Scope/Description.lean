import Midend.Scope.Checker
import Midend.Text.Quoted

/-!
# Descriptions of trees

A tree can be described by nested records, each with a kind and the parts that the kind calls for.
A description is turned into a tree, or the first record is named that describes none.  Records
inside a record come before it, except that declarations and references have nothing inside.

## Main definitions

* `Description`: the records.
* `Description.toTree`: the tree of a description.
* `DescriptionError`: which record is wrong and why.
-/

namespace Midend.Scope

/-- A record that describes a tree. -/
inductive Description where
  /-- The kind of tree, the name of a declaration or reference, the parameters of a function, and
  what is inside. -/
  | mk (kind name : String) (params : List String) (children : List Description)
  deriving Repr, Inhabited

/-- What is wrong with a record. -/
inductive DescriptionFault where
  /-- A declaration or reference has no name. -/
  | nameless (kind : String)
  /-- A declaration or reference has something inside. -/
  | notALeaf (kind : String)
  /-- There is no such kind. -/
  | unknownKind (kind : String)
  deriving DecidableEq, Repr, Inhabited

/-- The wording of a fault. -/
def DescriptionFault.message : DescriptionFault → String
  | .nameless kind => s!"{kind} without a name"
  | .notALeaf kind => s!"{kind} cannot have children"
  | .unknownKind kind => s!"unknown kind {Text.quote kind}"

/-- A record that describes no tree. -/
structure DescriptionError where
  /-- The way to the record: at each level, the number of the record to go into. -/
  path : List Nat
  /-- What is wrong with it. -/
  fault : DescriptionFault
  deriving DecidableEq, Repr, Inhabited

/-- The way to a record in words. -/
def pathText (path : List Nat) : String :=
  path.foldl (fun s i => s!"{s}.children[{i}]") "root"

/-- The wording of an error. -/
def DescriptionError.message (e : DescriptionError) : String :=
  s!"{pathText e.path}: {e.fault.message}"

/-- The tree of a declaration or reference. -/
def leafTree (path : List Nat) (kind name : String) (childless : Bool) :
    Except DescriptionError Tree :=
  if name = "" then .error ⟨path, .nameless kind⟩
  else if !childless then .error ⟨path, .notALeaf kind⟩
  else if kind = "decl" then .ok (.decl name)
  else .ok (.ref name)

/-- The tree of a record that has others inside. -/
def compositeTree (path : List Nat) (kind : String) (params : List String) (parts : List Tree) :
    Except DescriptionError Tree :=
  if kind = "block" then .ok (.block parts)
  else if kind = "func" then .ok (.func params (.block parts))
  else if kind = "generic" then .ok (.generic parts)
  else .error ⟨path, .unknownKind kind⟩

mutual

/-- The tree that a record at the end of a path describes. -/
def Description.toTreeAt (path : List Nat) : Description → Except DescriptionError Tree
  | .mk kind name params children =>
    if kind = "decl" || kind = "ref" then leafTree path kind name children.isEmpty
    else do
      let parts ← toTrees path 0 children
      compositeTree path kind params parts

/-- The trees of the records inside the record at the end of a path, of which the first has the
given number. -/
def toTrees (path : List Nat) (index : Nat) :
    List Description → Except DescriptionError (List Tree)
  | [] => .ok []
  | d :: rest => do
    let t ← d.toTreeAt (path ++ [index])
    let ts ← toTrees path (index + 1) rest
    .ok (t :: ts)

end

/-- The tree that a record describes. -/
def Description.toTree (d : Description) : Except DescriptionError Tree := d.toTreeAt []

end Midend.Scope
