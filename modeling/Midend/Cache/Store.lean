import Midend.Cache.Digest
import Midend.Cache.Entry
import Midend.Files.Tree
import Midend.Options

/-!
# The result cache

The cache keeps entries in files, one for each key.  The key of a program is the digest of its text
and of the options that change the result.  An entry is written to a file of its own first, which
then takes the place of the old one, so that an entry is either the old or the new one.

## Main definitions

* `keyBytes`, `Key.ofSource`: the key of a program.
* `Cache.openIn`: makes the directory of a cache.
* `Cache.put`, `Cache.get`, `Cache.getInto`, `Cache.dropAll`: the operations.
* `CacheError`: why they fail.
-/

namespace Midend.Cache

open Files (FileTree FileError Cause)

/-- A key: 32 bytes. -/
structure Key where
  /-- The bytes. -/
  bytes : List UInt8
  deriving DecidableEq, Repr, Inhabited

/-- The hexadecimal form of a key. -/
def Key.text (k : Key) : String :=
  String.ofList (k.bytes.flatMap fun b => Text.hexDigits 2 b.toNat)

/-- The part of the options that changes the result, in words. -/
def optionsText (o : Options) : String :=
  s!"rounds={o.maxRounds},peephole={o.peephole},constprop={o.constProp}"

/-- What the key of a program is the digest of: its text, a zero byte, and the options. -/
def keyBytes (source : List UInt8) (o : Options) : List UInt8 :=
  source ++ 0 :: (optionsText o).toUTF8.data.toList

/-- The key of a program. -/
def Key.ofSource (source : ByteArray) (o : Options) : Key :=
  ⟨sha256 (keyBytes source.data.toList o)⟩

/-- The environment variables that matter for the place of the cache. -/
structure Environment where
  /-- The directory for caches. -/
  cacheHome : String := ""
  /-- The home directory. -/
  home : String := ""
  deriving DecidableEq, Repr, Inhabited

/-- Why an operation on the cache failed. -/
inductive CacheError where
  /-- There is no home directory to put the cache in. -/
  | noHome
  /-- An operation on files failed. -/
  | file (e : FileError)
  /-- A stored entry cannot be read, because of the file or of its content. -/
  | unreadable (key : Key) (e : Option FileError)
  deriving DecidableEq, Repr, Inhabited

/-- The wording of an error. -/
def CacheError.message : CacheError → String
  | .noHome => "$HOME is not defined"
  | .file e => e.message
  | .unreadable key (some e) => s!"cache entry {key.text}: {e.message}"
  | .unreadable key none => s!"cache entry {key.text}: invalid content"

end Midend.Cache

namespace Midend

open Files (FileTree FileError Cause)
open Cache (CacheError Entry Key)

/-- A cache: a directory. -/
structure Cache where
  /-- The path of the directory. -/
  dir : String
  deriving DecidableEq, Repr, Inhabited

namespace Cache

/-- The directory of a cache that was opened without naming one. -/
def defaultDir (env : Environment) : Except CacheError String :=
  if env.cacheHome != "" then .ok (Files.joinPaths [env.cacheHome, "optir"])
  else if env.home = "" then .error .noHome
  else .ok (Files.joinPaths [Files.joinPaths [env.home, ".cache"], "optir"])

/-- Opens the cache in a directory, which is made if it is missing.  An empty path stands for the
directory that the environment says. -/
def openIn (env : Environment) (t : FileTree) (dir : String) :
    Except CacheError Cache × FileTree :=
  match if dir = "" then defaultDir env else .ok dir with
  | .error e => (.error e, t)
  | .ok dir =>
    match t.makeDirs dir with
    | (.ok (), t) => (.ok ⟨dir⟩, t)
    | (.error e, t) => (.error (.file e), t)

/-- The directory of the entries. -/
def entriesDir (c : Cache) : String := Files.joinPaths [c.dir, "results"]

/-- The file of an entry. -/
def entryPath (c : Cache) (k : Key) : String :=
  Files.joinPaths [c.dir, "results", s!"{k.text}.mp"]

/-- The steps of storing an entry. -/
inductive PutStep where
  /-- The directory of the entries is made. -/
  | makeDir
  /-- A file for the new entry is made. -/
  | create
  /-- The entry is written to it. -/
  | write
  /-- The file is closed. -/
  | close
  /-- It takes the place of the entry. -/
  | rename
  deriving DecidableEq, Repr, Inhabited

/-- Fails if a device refuses a step. -/
def attempt (refuses : PutStep → Bool) (step : PutStep) (op path : String) :
    Except FileError Unit :=
  if refuses step then .error ⟨op, path, .refused⟩ else .ok ()

/-- Writes an entry to a file of its own, and puts that in the place of the entry. -/
def replaceEntry (refuses : PutStep → Bool) (t : FileTree) (temp path : String) (e : Entry) :
    Except FileError FileTree := do
  attempt refuses .write "write" temp
  let t ← t.write temp ⟨e.encode.toArray⟩
  attempt refuses .close "close" temp
  attempt refuses .rename "rename" (temp ++ " " ++ path)
  t.rename temp path

/-- Stores an entry under a key, on a device that refuses some steps.  If a step fails, the file
that was made for the entry is removed. -/
def putOn (refuses : PutStep → Bool) (c : Cache) (t : FileTree) (k : Key) (e : Entry) :
    Except CacheError Unit × FileTree :=
  let made : Except FileError Unit × FileTree :=
    match attempt refuses .makeDir "mkdir" c.entriesDir with
    | .error err => (.error err, t)
    | .ok () => t.makeDirs c.entriesDir
  match made with
  | (.error err, t) => (.error (.file err), t)
  | (.ok (), t) =>
    let temp := t.freshPath c.entriesDir
    let created := do
      attempt refuses .create "open" temp
      t.write temp ⟨#[]⟩
    match created with
    | .error err => (.error (.file err), t)
    | .ok created =>
      let e := { e with schema := schemaVersion }
      match replaceEntry refuses created temp (c.entryPath k) e with
      | .ok t => (.ok (), t)
      | .error err => (.error (.file err), created.remove temp)

/-- Stores an entry under a key. -/
def put (c : Cache) (t : FileTree) (k : Key) (e : Entry) : Except CacheError Unit × FileTree :=
  c.putOn (fun _ => false) t k e

/-- The entry under a key, if there is one of the current version. -/
def get (c : Cache) (t : FileTree) (k : Key) : Except CacheError (Option Entry) :=
  match t.read (c.entryPath k) with
  | .error e =>
    if e.cause = .missing then .ok none
    else if e.op = "read" then .error (.unreadable k (some e))
    else .error (.file e)
  | .ok content =>
    match Entry.decode? content.data.toList with
    | none => .error (.unreadable k none)
    | some e => .ok (if e.schema = schemaVersion then some e else none)

/-- Reads the entry under a key into `out` and tells whether there is one. -/
def getInto (c : Cache) (t : FileTree) (k : Key) (out : Entry) : Except CacheError Bool × Entry :=
  match c.get t k with
  | .ok (some e) => (.ok true, e)
  | .ok none => (.ok false, out)
  | .error err => (.error err, out)

/-- Removes all entries. -/
def dropAll (c : Cache) (t : FileTree) : FileTree := t.removeAll c.entriesDir

end Cache

end Midend
