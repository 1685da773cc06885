/-!
# Stacks of scopes

A scope is the set of the names declared in it.  Scopes are nested: a name is visible if any open
scope has it, and a declaration goes to the innermost one.

## Main definitions

* `Stack`: the open scopes, the innermost first.
* `Stack.push`, `Stack.pop`, `Stack.declare`, `Stack.lookup`: the operations.
* `StackFault`: the operations that an empty stack refuses.
-/

namespace Midend.Scope

/-- The names that are declared in a scope. -/
abbrev Frame := List String

/-- The open scopes, the innermost first. -/
structure Stack where
  /-- The scopes. -/
  frames : List Frame := []
  deriving DecidableEq, Repr, Inhabited

/-- An operation that needs an open scope was called without one. -/
inductive StackFault where
  /-- There is no scope to close. -/
  | popEmpty
  /-- There is no scope to declare a name in. -/
  | declareOutside
  deriving DecidableEq, Repr, Inhabited

/-- The wording of a misuse. -/
def StackFault.message : StackFault → String
  | .popEmpty => "scope: pop from an empty stack"
  | .declareOutside => "scope: declaration outside of any scope"

namespace Stack

/-- The number of open scopes. -/
def depth (s : Stack) : Nat := s.frames.length

/-- Opens a scope. -/
def push (s : Stack) : Stack := ⟨[] :: s.frames⟩

/-- Closes the innermost scope. -/
def pop (s : Stack) : Except StackFault Stack :=
  match s.frames with
  | [] => .error .popEmpty
  | _ :: outer => .ok ⟨outer⟩

/-- Declares a name in the innermost scope.  A name may be declared again. -/
def declare (s : Stack) (name : String) : Except StackFault Stack :=
  match s.frames with
  | [] => .error .declareOutside
  | f :: outer => .ok ⟨f.insert name :: outer⟩

/-- Is the name declared in any open scope? -/
def lookup (s : Stack) (name : String) : Bool := s.frames.any fun f => f.contains name

@[simp] theorem depth_push (s : Stack) : s.push.depth = s.depth + 1 := rfl

@[simp] theorem pop_push (s : Stack) : s.push.pop = .ok s := rfl

/-- A name is visible exactly if some open scope has it. -/
theorem lookup_iff (s : Stack) (name : String) :
    s.lookup name = true ↔ ∃ f ∈ s.frames, name ∈ f := by
  simp [lookup]

end Stack

end Midend.Scope
