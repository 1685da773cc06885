import Midend.Scope.Description
import Midend.Toml.Fields

/-!
# Trees from files

A description of a tree is written as a TOML document: each table is a record, with the keys `kind`,
`name`, `params` and `children`.

## Main definitions

* `Description.ofDocument`: the description in a document.
* `Tree.parse`: the tree that a file describes.
* `TreeError`: why a file describes none.
-/

namespace Midend.Scope

/-- Why a file describes no tree. -/
inductive TreeError where
  /-- The file is no document, or a value has the wrong type. -/
  | document (e : Toml.Error)
  /-- Some keys have no meaning. -/
  | unknownKeys (keys : List Toml.Key)
  /-- A record describes no tree. -/
  | description (e : DescriptionError)
  deriving DecidableEq, Repr, Inhabited

/-- The wording of an error. -/
def TreeError.message : TreeError → String
  | .document e => s!"failed to parse TOML: {e.message}"
  | .unknownKeys keys => s!"invalid tree: {Toml.unknownKeysText keys}"
  | .description e => s!"invalid tree: {e.message}"

namespace Description

/-- The names of the fields of a record. -/
def fieldNames : List String := ["kind", "name", "params", "children"]

open Toml (Key Filling)

/-- A record in which nothing is filled yet. -/
def blank : Description := ⟨"", "", [], []⟩

/-- Fills the field of the given name, unless it is the one for what is inside. -/
def fillField (here : Key) (d : Description) (field : String) (v : Toml.Value) :
    Filling Description :=
  match d, field with
  | ⟨_, name, params, children⟩, "kind" => do
    pure ⟨← Filling.string here v, name, params, children⟩
  | ⟨kind, _, params, children⟩, "name" => do
    pure ⟨kind, ← Filling.string here v, params, children⟩
  | ⟨kind, name, _, children⟩, "params" => do
    pure ⟨kind, name, ← Filling.strings here v, children⟩
  | d, _ => pure d

/-- A record with other records inside. -/
def withChildren : Description → List Description → Description
  | ⟨kind, name, params, _⟩, children => ⟨kind, name, params, children⟩

mutual

/-- Fills the fields of a record from the entries of a table, in order. -/
def fill (table : Key) (d : Description) : Toml.Table → Filling Description
  | [] => pure d
  | (key, v) :: rest => do
    let here := table ++ [key]
    match Toml.fieldFor? fieldNames key with
    | none => fill table d rest
    | some field =>
      Filling.addKey here
      if field = "children" then
        let children ← ofValue here v
        fill table (d.withChildren children) rest
      else
        let d ← fillField here d field v
        fill table d rest

/-- The records of a value that holds tables. -/
def ofValue (key : Key) : Toml.Value → Filling (List Description)
  | .array items => ofItems key items
  | .tables items => ofTables key items
  | _ => throw (.wrongType key "array of tables")

/-- The records of the values of an array. -/
def ofItems (key : Key) : List Toml.Value → Filling (List Description)
  | [] => pure []
  | .table t :: rest => do
    let d ← fill key blank t
    let ds ← ofItems key rest
    pure (d :: ds)
  | _ :: _ => throw (.wrongType key "table")

/-- The records of tables under the same header. -/
def ofTables (key : Key) : List Toml.Table → Filling (List Description)
  | [] => pure []
  | t :: rest => do
    let d ← fill key blank t
    let ds ← ofTables key rest
    pure (d :: ds)

end

/-- The description in a document, and the keys that have no meaning. -/
def ofDocument (doc : Toml.Document) : Except Toml.Error (Description × List Key) := do
  let (d, filled) ← (fill [] blank doc.root).run []
  .ok (d, doc.unknownKeys filled)

end Description

/-- The tree that a file describes. -/
def Tree.parse (bytes : ByteArray) : Except TreeError Tree := do
  let doc ← (Toml.Document.parse bytes).mapError .document
  let (d, unknown) ← (Description.ofDocument doc).mapError .document
  if !unknown.isEmpty then .error (.unknownKeys unknown)
  else d.toTree.mapError .description

end Midend.Scope
