import Midend.Scope.Stack

/-!
# Checking names

A tree keeps of a source program what matters for its names: declarations, references, and the
scopes they stand in.  Checking walks through a tree in source order and stops at the first
reference to a name that is not visible there.

## Main definitions

* `Tree`: the trees.
* `Tree.check`: the walk, inside the scopes that are open.
* `check`: the walk in a scope of its own.
-/

namespace Midend.Scope

/-- What matters of a source program for its names. -/
inductive Tree where
  /-- Nothing. -/
  | empty
  /-- Declares a name in the innermost scope. -/
  | decl (name : String)
  /-- Refers to a name. -/
  | ref (name : String)
  /-- Statements in a scope of their own. -/
  | block (stmts : List Tree)
  /-- A scope that declares parameters, and a body inside it. -/
  | func (params : List String) (body : Tree)
  /-- Anything else: its parts in order, in the scope around it. -/
  | generic (parts : List Tree)
  deriving Repr, Inhabited

/-- Why a check stopped. -/
inductive CheckError where
  /-- A name was used that no open scope has. -/
  | undeclared (name : String)
  /-- A scope was needed and none was open. -/
  | misuse (fault : StackFault)
  deriving DecidableEq, Repr, Inhabited

/-- The wording of an error. -/
def CheckError.message : CheckError → String
  | .undeclared name => s!"variable {name} used before declaration"
  | .misuse f => f.message

/-- A walk that changes the open scopes and may stop early. -/
abbrev Checking := ExceptT CheckError (StateM Stack)

namespace Checking

/-- Replaces the open scopes, unless the operation is refused. -/
def update (f : Stack → Except StackFault Stack) : Checking Unit := do
  match f (← get) with
  | .ok s => set s
  | .error e => throw (.misuse e)

/-- Opens a scope. -/
def enter : Checking Unit := modify Stack.push

/-- Closes the innermost scope. -/
def leave : Checking Unit := update Stack.pop

/-- Declares a name. -/
def declare (name : String) : Checking Unit := update (·.declare name)

/-- Declares names in order. -/
def declareAll : List String → Checking Unit
  | [] => pure ()
  | n :: rest => do
    declare n
    declareAll rest

/-- Refers to a name. -/
def refer (name : String) : Checking Unit := do
  if !(← get).lookup name then throw (.undeclared name)

/-- Walks in a scope of its own, which is closed however the walk ends. -/
def inScope (walk : Checking Unit) : Checking Unit := do
  enter
  tryCatch walk fun e => do
    leave
    throw e
  leave

end Checking

mutual

/-- Walks through a tree in the scopes that are open. -/
def Tree.check : Tree → Checking Unit
  | .empty => pure ()
  | .decl name => Checking.declare name
  | .ref name => Checking.refer name
  | .block stmts => Checking.inScope (checkList stmts)
  | .func params body => Checking.inScope do
    Checking.declareAll params
    body.check
  | .generic parts => checkList parts

/-- Walks through trees in order. -/
def checkList : List Tree → Checking Unit
  | [] => pure ()
  | t :: rest => do
    t.check
    checkList rest

end

/-- Checks a tree in a scope of its own. -/
def check (t : Tree) : Checking Unit := Checking.inScope t.check

/-- The first name of a tree that is not visible where it is used, if any. -/
def offender? (t : Tree) (s : Stack) : Option String :=
  match ((check t).run s).1 with
  | .error (.undeclared name) => some name
  | _ => none

end Midend.Scope
