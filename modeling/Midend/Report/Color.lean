import Midend.Pass.Session

/-!
# Coloured text

Text is coloured by escape sequences around it.  Words are closed attribute by attribute, and lines
all at once.

## Main definitions

* `Attribute`: colours and weights.
* `paintWord`, `paintLine`: coloured text.
* `visitLine`: the line for a step of the peephole walk.
-/

namespace Midend.Report

/-- How text looks. -/
inductive Attribute where
  /-- Heavy letters. -/
  | bold
  /-- Green. -/
  | green
  /-- Yellow. -/
  | yellow
  /-- Cyan. -/
  | cyan
  /-- Gray. -/
  | gray
  deriving DecidableEq, Repr, Inhabited

/-- The number that switches an attribute on. -/
def Attribute.code : Attribute → String
  | .bold => "1"
  | .green => "32"
  | .yellow => "33"
  | .cyan => "36"
  | .gray => "90"

/-- The number that switches an attribute off. -/
def Attribute.reset : Attribute → String
  | .bold => "22"
  | _ => "0"

/-- An escape sequence. -/
def escape (codes : List String) : String := "\x1b[" ++ ";".intercalate codes ++ "m"

/-- A word with attributes, if colours are on. -/
def paintWord (color : Bool) (attrs : List Attribute) (s : String) : String :=
  if color then escape (attrs.map Attribute.code) ++ s ++ escape (attrs.map Attribute.reset)
  else s

/-- A line with attributes, if colours are on. -/
def paintLine (color : Bool) (attrs : List Attribute) (s : String) : String :=
  if color then escape (attrs.map Attribute.code) ++ s ++ escape ["0"] else s

/-- The line for a step of the peephole walk. -/
def visitLine (color : Bool) : Visit → String
  | .func name => paintLine color [.cyan, .bold] s!"Function Name: {name}\n"
  | .block name => paintLine color [.gray] s!"In basic block {name}\n"

/-- The lines for the steps of a walk. -/
def traceText (color : Bool) (visits : List Visit) : String :=
  String.join (visits.map (visitLine color))

end Midend.Report
