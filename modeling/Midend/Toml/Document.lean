import Midend.Toml.Statement

/-!
# TOML documents

The statements of a document are carried out one by one.  A header opens a table, and the keys
behind it go there; the tables around it, and those that a dotted key goes through, come into being
by themselves and may still be opened once.  A key that has a value already is refused, unless the
value is an array: an array may be replaced.

## Main definitions

* `Document`: the root table, and all keys in the order in which they were written.
* `Document.parse`: the document of a file.
-/

namespace Midend.Toml

/-- A document. -/
structure Document where
  /-- The outermost table. -/
  root : Table
  /-- The keys of headers, of values and of the tables between braces, in order. -/
  keys : List Key
  deriving Repr, Inhabited

/-- A document in the making. -/
structure Draft where
  /-- The outermost table. -/
  root : Table := []
  /-- The tables that came into being by themselves and were not opened yet. -/
  implicit : List Key := []
  /-- The keys whose value is an array. -/
  arrays : List Key := []
  /-- The keys so far. -/
  keys : Array Key := #[]
  deriving Inhabited

/-- An action on a draft that may be refused. -/
abbrev Drafting := StateT Draft (Except Error)

namespace Drafting

/-- Notes that a table came into being by itself. -/
def addImplicit (key : Key) : Drafting Unit :=
  modify fun d => { d with implicit := d.implicit.insert key }

/-- Notes that a table is no longer one that came into being by itself. -/
def removeImplicit (key : Key) : Drafting Unit :=
  modify fun d => { d with implicit := d.implicit.erase key }

/-- Notes a key. -/
def addKey (key : Key) : Drafting Unit := modify fun d => { d with keys := d.keys.push key }

/-- The key whose kind is noted for a value of a name in a table.  For the empty name it is the
table itself, unless that is the outermost one. -/
def kindKey (table : Key) (name : String) : Key :=
  if name = "" && !table.isEmpty then table else table ++ [name]

/-- Notes whether the value of a name is an array. -/
def noteKind (table : Key) (name : String) (isArray : Bool) : Drafting Unit :=
  let key := kindKey table name
  modify fun d =>
    { d with arrays := if isArray then d.arrays.insert key else d.arrays.erase key }

/-- Replaces the value of a name in a table. -/
def put (table : Key) (name : String) (v : Value) : Drafting Unit :=
  modify fun d => { d with root := d.root.modifyAt (Table.put name v) table }

/-- The entries of a table. -/
def entries (table : Key) : Drafting Table := do
  match (← get).root.at? table with
  | some t => pure t
  | none => throw (.notATable table)

/-- Gives a name in a table a value.  A table that came into being by itself stays as it is. -/
def define (table : Key) (name : String) (v : Value) : Drafting Unit := do
  let t ← entries table
  let key := table ++ [name]
  let d ← get
  if !t.has name then put table name v
  else if d.arrays.contains key then
    removeImplicit key
    put table name v
  else if d.implicit.contains key then removeImplicit key
  else throw (.alreadyDefined key)

/-- Makes sure that there are tables along the way from `table` on. -/
def makeWay (table : Key) : Key → Drafting Unit
  | [] => pure ()
  | name :: rest => do
    let t ← entries table
    let key := table ++ [name]
    if !t.has name then
      addImplicit key
      put table name (.table [])
    discard (entries key)
    makeWay key rest

/-- Adds a table to those under the same header. -/
def appendTable (table : Key) (name : String) : Drafting Unit := do
  let t ← entries table
  match t.lookup name with
  | none => put table name (.tables [[]])
  | some (.tables ts) => put table name (.tables (ts ++ [[]]))
  | some _ => throw (.alreadyDefined (table ++ [name]))

/-- Opens a table, or a new one under the same header.  The tables on the way are made if one of
them is missing. -/
def openTable (key : Key) (append : Bool) : Drafting Unit := do
  let table := key.dropLast
  let name := key.getLast?.getD ""
  if ((← get).root.at? table).isNone then makeWay [] table
  if append then appendTable table name else define table name (.table [])

/-- Opens the tables along a dotted key from `table` on, each as one that came into being by
itself. -/
def openWay (table : Key) : Key → Drafting Unit
  | [] => pure ()
  | name :: rest => do
    let key := table ++ [name]
    addImplicit key
    openTable key false
    openWay key rest

end Drafting

/-- Is the value written between brackets? -/
def Expr.isArray : Expr → Bool
  | .array _ => true
  | _ => false

open Drafting in
mutual

/-- The value of an expression that is given to a name in a table.  Tables between braces are opened
as they come up. -/
def Expr.build (table : Key) (name : String) (inArray : Bool) : Expr → Drafting Value
  | .scalar v => pure v
  | .array items => do
    noteKind table name true
    let vs ← buildItems table name items
    pure (.array vs)
  | .inline pairs => do
    let here := table ++ [name]
    addImplicit here
    openTable here inArray
    let t ← buildPairs here [] pairs
    pure (.table t)

/-- The values of an array. -/
def buildItems (table : Key) (name : String) : List Expr → Drafting (List Value)
  | [] => pure []
  | e :: rest => do
    let v ← e.build table name true
    let vs ← buildItems table name rest
    pure (v :: vs)

/-- Carries out the keys and values between braces.  The result has each value under the last part
of its key. -/
def buildPairs (table : Key) (done : Table) : List (Key × Expr) → Drafting Table
  | [] => pure done
  | (key, e) :: rest => do
    openWay table key.dropLast
    let parent := table ++ key.dropLast
    let name := key.getLast?.getD ""
    addKey (parent ++ [name])
    let v ← e.build parent name false
    define parent name v
    noteKind parent name e.isArray
    buildPairs table (done.put name v) rest

end

open Drafting in
/-- Carries out a statement.  The result is the table that the keys behind it go to. -/
def Statement.perform (table : Key) : Statement → Drafting Key
  | .header key => do
    openTable key false
    noteKind key "" false
    addKey key
    pure key
  | .arrayHeader key => do
    openTable key true
    noteKind key "" false
    addKey key
    pure key
  | .pair key e => do
    discard (buildPairs table [] [(key, e)])
    pure table

/-- Carries out statements in order. -/
def performAll (table : Key) : List Statement → Drafting Unit
  | [] => pure ()
  | s :: rest => do
    let table ← s.perform table
    performAll table rest

/-- The document of a file. -/
def Document.parse (bytes : ByteArray) : Except Error Document := do
  let ss ← statements bytes
  let ((), d) ← (performAll [] ss).run {}
  .ok ⟨d.root, d.keys.toList⟩

end Midend.Toml
