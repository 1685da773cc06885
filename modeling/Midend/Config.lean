import Midend.Files.Tree
import Midend.Options
import Midend.Toml.Fields

/-!
# Configuration files

A configuration file is a TOML document that sets some of the options.  Options that it does not
set keep their value.  The fields are filled by a library, which may take the keys of a document in
any order.

## Main definitions

* `Config`: the options that a file sets.
* `Config.Decoder`, `Config.decode`: libraries that fill the fields, and one of them.
* `Config.loadFile`: reads a file.
* `Config.apply`: sets the options.
* `ConfigError`: why a file is refused.
-/

namespace Midend

/-- The options that a file sets. -/
structure Config where
  /-- The limit for the peephole rounds. -/
  maxRounds : Option Int := none
  /-- Run the peephole passes? -/
  peephole : Option Bool := none
  /-- Run constant propagation? -/
  constProp : Option Bool := none
  /-- Verify the result? -/
  verify : Option Bool := none
  deriving DecidableEq, Repr, Inhabited

/-- Why a configuration file is refused. -/
inductive ConfigError where
  /-- The file cannot be read. -/
  | file (e : Files.FileError)
  /-- The file is no document, or a value has the wrong type. -/
  | document (e : Toml.Error)
  /-- Some keys have no meaning. -/
  | unknownKeys (keys : List Toml.Key)
  /-- The limit for the rounds is too low. -/
  | tooFewRounds (n : Int)
  deriving DecidableEq, Repr, Inhabited

/-- The wording of an error. -/
def ConfigError.message : ConfigError → String
  | .file e => s!"failed to parse TOML: {e.message}"
  | .document e => s!"failed to parse TOML: {e.message}"
  | .unknownKeys keys => s!"invalid config: {Toml.unknownKeysText keys}"
  | .tooFewRounds n => s!"invalid config: max_rounds must be at least 1, got {n}"

namespace Config

open Toml (Key Filling)

/-- The names of the keys that have a meaning. -/
def fieldNames : List String := ["max_rounds", "peephole", "constprop", "verify"]

/-- Fills the field for a key, if there is one. -/
def fillField (c : Config) (key : String) (v : Toml.Value) : Filling Config :=
  match Toml.fieldFor? fieldNames key with
  | some "max_rounds" => do
    Filling.addKey [key]
    pure { c with maxRounds := some (← Filling.integer [key] v) }
  | some "peephole" => do
    Filling.addKey [key]
    pure { c with peephole := some (← Filling.boolean [key] v) }
  | some "constprop" => do
    Filling.addKey [key]
    pure { c with constProp := some (← Filling.boolean [key] v) }
  | some "verify" => do
    Filling.addKey [key]
    pure { c with verify := some (← Filling.boolean [key] v) }
  | _ => pure c

/-- Fills the fields from the entries of a table, in order. -/
def fill (c : Config) : Toml.Table → Filling Config
  | [] => pure c
  | (key, v) :: rest => do
    let c ← c.fillField key v
    c.fill rest

/-- What a library makes of a document. -/
structure Decoded where
  /-- The fields it has filled. -/
  config : Config
  /-- The keys that fill no field. -/
  undecoded : List Key
  /-- Does the outermost table have a key of this text? -/
  isDefined : String → Bool

/-- A library that reads configurations from documents. -/
abbrev Decoder := Toml.Document → Except Toml.Error Decoded

/-- Fills the fields from the entries of a document in a given order.  Of several keys for one field
the last one counts. -/
def decodeBy (order : Toml.Table → Toml.Table) : Decoder := fun doc => do
  let (c, filled) ← (fill {} (order doc.root)).run []
  .ok ⟨c, doc.unknownKeys filled, doc.isDefined⟩

/-- Fills the fields in the order in which the keys are written. -/
def decode : Decoder := decodeBy id

/-- The configuration in a decoded document.  The limit for the rounds is checked if its key is
written in lower case. -/
def check (d : Decoded) : Except ConfigError Config :=
  if !d.undecoded.isEmpty then .error (.unknownKeys d.undecoded)
  else
    match d.config.maxRounds with
    | some n => if d.isDefined "max_rounds" && n < 1 then .error (.tooFewRounds n) else .ok d.config
    | none => .ok d.config

/-- The document in a file. -/
def loadDocument (t : Files.FileTree) (path : String) : Except ConfigError Toml.Document := do
  let bytes ← (t.read path).mapError .file
  (Toml.Document.parse bytes).mapError .document

/-- Reads a configuration file. -/
def loadFile (t : Files.FileTree) (path : String) (decode : Decoder := decode) :
    Except ConfigError Config := do
  let doc ← loadDocument t path
  check (← (decode doc).mapError .document)

/-- Sets the options that a configuration sets. -/
def apply (c : Config) (o : Options) : Options :=
  { o with
    maxRounds := c.maxRounds.getD o.maxRounds
    peephole := c.peephole.getD o.peephole
    constProp := c.constProp.getD o.constProp
    verify := c.verify.getD o.verify }

end Config

end Midend
