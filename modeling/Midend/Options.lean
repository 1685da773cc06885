import Midend.Text.Numeral

/-!
# Options

What the optimizer is asked to do, and where that comes from: built-in defaults, which two
environment variables can change, and setters.

## Main definitions

* `Options`: the switches of the optimizer.
* `Options.withMaxRounds`: the only setter that can refuse its argument.
* `Defaults`, `Defaults.ofEnvironment`: the switches before anybody sets them.
-/

namespace Midend

/-- The switches of the optimizer. -/
structure Options where
  /-- How often the peephole walk is repeated at most. -/
  maxRounds : Int := 8
  /-- Whether the peephole walk runs at all. -/
  peephole : Bool := true
  /-- Whether constants are propagated and dead code is swept. -/
  constProp : Bool := true
  /-- Whether the result is verified. -/
  verify : Bool := false
  deriving DecidableEq, Repr, Inhabited

/-- Why an option was refused. -/
inductive OptionFault where
  /-- There must be at least one round. -/
  | invalidRounds (n : Int)
  /-- A logger was announced and not given. -/
  | missingLogger
  /-- A tracer was announced and not given. -/
  | missingTracer
  /-- The text of an environment variable is no value. -/
  | invalidVariable (key : String)
  /-- The value of an environment variable is too small. -/
  | variableTooSmall (key : String)
  deriving DecidableEq, Repr, Inhabited

/-- The wording of a refusal. -/
def OptionFault.message : OptionFault → String
  | .invalidRounds n => s!"optir: invalid max rounds: {n}"
  | .missingLogger => "optir: nil logger"
  | .missingTracer => "optir: nil tracer"
  | .invalidVariable key => s!"optir: invalid value for {key}"
  | .variableTooSmall key => s!"optir: value too small for {key}"

/-- A number of rounds, which must be positive. -/
def checkRounds (n : Int) : Except OptionFault Int :=
  if n < 1 then .error (.invalidRounds n) else .ok n

namespace Options

/-- May another round follow after the given number of rounds? -/
def canRepeat (o : Options) (rounds : Int) : Bool := rounds < o.maxRounds

/-- Sets the largest number of rounds. -/
def withMaxRounds (o : Options) (n : Int) : Except OptionFault Options := do
  pure { o with maxRounds := ← checkRounds n }

end Options

/-! ### Defaults -/

/-- The switches that can be preset. -/
structure Defaults where
  /-- The largest number of rounds. -/
  maxRounds : Int := 8
  /-- Whether the result is verified. -/
  verify : Bool := false
  deriving DecidableEq, Repr, Inhabited

namespace Defaults

/-- The options before anybody sets them. -/
def options (d : Defaults) : Options := { maxRounds := d.maxRounds, verify := d.verify }

/-- Presets the largest number of rounds and yields the former one. -/
def setMaxRounds (d : Defaults) (n : Int) : Except OptionFault (Int × Defaults) := do
  let n ← checkRounds n
  pure (d.maxRounds, { d with maxRounds := n })

/-- The value of an environment variable that holds a number above `least`.  The number is an
unsigned word, read as a signed one. -/
def intVariable (key text : String) (preset least : Int) : Except OptionFault Int :=
  if text = "" then .ok preset
  else
    match Text.readUnsigned text with
    | .error _ => .error (.invalidVariable key)
    | .ok n =>
      let value := n.toInt64.toInt
      if value ≤ least then .error (.variableTooSmall key) else .ok value

/-- The value of an environment variable that holds a truth value. -/
def boolVariable (key text : String) (preset : Bool) : Except OptionFault Bool :=
  if text = "" then .ok preset
  else
    match Text.readBool text with
    | some b => .ok b
    | none => .error (.invalidVariable key)

/-- The variable that presets the number of rounds. -/
def roundsKey : String := "OPTIR_MAX_ROUNDS"

/-- The variable that presets verification. -/
def verifyKey : String := "OPTIR_VERIFY"

/-- The defaults, given the texts of the two environment variables. -/
def ofEnvironment (rounds verify : String) : Except OptionFault Defaults := do
  let rounds ← intVariable roundsKey rounds 8 0
  let verify ← boolVariable verifyKey verify false
  pure ⟨rounds, verify⟩

end Defaults

end Midend
