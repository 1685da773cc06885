import Midend.Toml.Document

/-!
# Reading records from documents

A record has fields with fixed names.  A key of a table fills the field of its name, or else the
first field whose name is the same but for the case of letters.  Keys that fill no field are found
afterwards among the keys of the document: a key is known if a key of the same text filled a field
anywhere.

## Main definitions

* `fieldFor?`: the field that a key fills.
* `Filling`: reading values, with the keys that filled a field.
* `Document.unknownKeys`: the keys that filled none.
-/

namespace Midend.Toml

/-- A letter without its case, as far as letters of field names have one: besides the capital
letters there are the sign for kelvin and the long s. -/
def foldCase (c : Char) : Char :=
  if c = '\u212a' then 'k' else if c = '\u017f' then 's' else c.toLower

/-- Are two names the same but for the case of letters? -/
def sameButCase (a b : String) : Bool := a.toList.map foldCase == b.toList.map foldCase

/-- The field that a key fills. -/
def fieldFor? (fields : List String) (key : String) : Option String :=
  if fields.contains key then some key else fields.find? fun f => sameButCase f key

/-- Reading values into fields.  The state holds the keys that filled one. -/
abbrev Filling := StateT (List Key) (Except Error)

namespace Filling

/-- Notes that a key filled a field. -/
def addKey (key : Key) : Filling Unit := modify fun ks => ks.insert key

/-- A text. -/
def string (key : Key) : Value → Filling String
  | .string s => pure s
  | _ => throw (.wrongType key "string")

/-- An integer. -/
def integer (key : Key) : Value → Filling Int
  | .integer n => pure n
  | _ => throw (.wrongType key "integer")

/-- A truth value. -/
def boolean (key : Key) : Value → Filling Bool
  | .boolean b => pure b
  | _ => throw (.wrongType key "boolean")

/-- Texts. -/
def strings (key : Key) : Value → Filling (List String)
  | .array vs => vs.mapM (string key)
  | _ => throw (.wrongType key "array of strings")

end Filling

/-- The keys of a document that filled no field. -/
def Document.unknownKeys (d : Document) (filled : List Key) : List Key :=
  d.keys.filter fun k => !filled.contains k

/-- Does the outermost table have a value of exactly this name? -/
def Document.isDefined (d : Document) (name : String) : Bool := d.root.has name

/-- The complaint about keys that fill no field. -/
def unknownKeysText (keys : List Key) : String :=
  "unknown keys: " ++ ", ".intercalate (keys.map Key.text)

end Midend.Toml
