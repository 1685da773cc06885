import Midend.Cache.MessagePack
import Midend.Pass.Session

/-!
# Cache entries

An entry holds what optimizing one program gave: its text, the trace of the walk and the counters.
Entries are stored as MessagePack maps.

## Main definitions

* `Counts`: the counters of an entry.
* `Entry`: an entry.
* `Entry.encode`, `Entry.decode?`: the stored form.
-/

namespace Midend.Cache

/-- The counters of an entry, as numbers of 64 bits. -/
structure Counts where
  /-- Rounds of the peephole walk. -/
  rounds : Int64 := 0
  /-- Instructions erased because nobody used them. -/
  erased : Int64 := 0
  /-- Instructions replaced by a constant. -/
  folded : Int64 := 0
  /-- Instructions whose two operands were merged. -/
  cse : Int64 := 0
  /-- Values replaced by what was stored. -/
  propagated : Int64 := 0
  /-- Blocks the data-flow solver took from its stack. -/
  dataflowPops : Int64 := 0
  deriving DecidableEq, Repr, Inhabited

/-- The counters of a session. -/
def Counts.ofStats (s : Stats) : Counts :=
  { rounds := Int64.ofNat s.rounds
    erased := Int64.ofNat s.erased
    folded := Int64.ofNat s.folded
    cse := Int64.ofNat s.cse
    propagated := Int64.ofNat s.propagated
    dataflowPops := Int64.ofNat s.dataflowPops }

/-- The counters on one line. -/
def Counts.text (c : Counts) : String :=
  s!"rounds={c.rounds.toInt} erased={c.erased.toInt} folded={c.folded.toInt} " ++
  s!"cse={c.cse.toInt} propagated={c.propagated.toInt} dataflow_pops={c.dataflowPops.toInt}"

/-- What optimizing a program gave.  The texts are bytes, because a stored entry may hold any. -/
structure Entry where
  /-- The version of the stored form. -/
  schema : UInt16 := 0
  /-- The name of the program. -/
  name : List UInt8 := []
  /-- The text of the optimized program. -/
  output : List UInt8 := []
  /-- The trace of the walk. -/
  trace : List UInt8 := []
  /-- The counters. -/
  stats : Counts := {}
  deriving DecidableEq, Repr, Inhabited

/-- The version of the stored form that this library writes and accepts. -/
def schemaVersion : UInt16 := 2

namespace Entry

open MessagePack (Reader)

/-- The bytes of a text. -/
def bytes (s : String) : List UInt8 := s.toUTF8.data.toList

/-- A name and a value of a map. -/
def pair (name : String) (value : List UInt8) : List UInt8 := MessagePack.text (bytes name) ++ value

/-- A counter with its name. -/
def countPair (name : String) (n : Int64) : List UInt8 := pair name (MessagePack.integer n.toInt)

/-- The stored form of the counters. -/
def encodeCounts (c : Counts) : List UInt8 :=
  MessagePack.mapHeader 6 ++ countPair "Rounds" c.rounds ++ countPair "Erased" c.erased ++
    countPair "Folded" c.folded ++ countPair "CSE" c.cse ++
    countPair "Propagated" c.propagated ++ countPair "DataflowPops" c.dataflowPops

/-- The stored form of an entry. -/
def encode (e : Entry) : List UInt8 :=
  MessagePack.mapHeader 5 ++ pair "Schema" (MessagePack.word16 e.schema) ++
    pair "Module" (MessagePack.text e.name) ++ pair "Output" (MessagePack.text e.output) ++
    pair "Trace" (MessagePack.text e.trace) ++ pair "Stats" (encodeCounts e.stats)

/-- A counter: any integer, cut to 64 bits. -/
def readCount : Reader Int64 := return Int64.ofInt (← MessagePack.readInteger)

/-- The fields of the counters. -/
def countFields : List (List UInt8 × (Counts → Reader Counts)) :=
  [(bytes "Rounds", fun c => return { c with rounds := ← readCount }),
   (bytes "Erased", fun c => return { c with erased := ← readCount }),
   (bytes "Folded", fun c => return { c with folded := ← readCount }),
   (bytes "CSE", fun c => return { c with cse := ← readCount }),
   (bytes "Propagated", fun c => return { c with propagated := ← readCount }),
   (bytes "DataflowPops", fun c => return { c with dataflowPops := ← readCount })]

/-- The version: any integer, cut to 16 bits. -/
def readSchema : Reader UInt16 := do
  let n ← MessagePack.readInteger
  pure (UInt16.ofNat (n % 0x10000).toNat)

/-- The fields of an entry. -/
def fields : List (List UInt8 × (Entry → Reader Entry)) :=
  [(bytes "Schema", fun e => return { e with schema := ← readSchema }),
   (bytes "Module", fun e => return { e with name := ← MessagePack.readText }),
   (bytes "Output", fun e => return { e with output := ← MessagePack.readText }),
   (bytes "Trace", fun e => return { e with trace := ← MessagePack.readText }),
   (bytes "Stats", fun e =>
     return { e with stats := ← MessagePack.readRecord {} countFields e.stats })]

/-- Reads an entry from its stored form.  What follows it does not matter. -/
def decode? (bytes : List UInt8) : Option Entry :=
  ((MessagePack.readRecord {} fields {}).run bytes).map Prod.fst

end Entry

end Midend.Cache
