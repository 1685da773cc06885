import Midend.Cache.Bytes

/-!
# MessagePack

A compact binary form for values.  Writing uses the shortest form of a text or number.  Reading
accepts every form: any width of an integer, binary data as text, and nil for anything.

## Main definitions

* `MessagePack.text`, `MessagePack.integer`, `MessagePack.word16`, `MessagePack.mapHeader`: writing.
* `MessagePack.Reader`: reading from the front of a byte sequence.
* `MessagePack.skip`: passes over a value of any kind.
-/

namespace Midend.Cache.MessagePack

/-! ### Writing -/

/-- A text. -/
def text (bytes : List UInt8) : List UInt8 :=
  let n := bytes.length
  if n < 32 then UInt8.ofNat (0xA0 + n) :: bytes
  else if n < 0x100 then 0xD9 :: (bigEndian 1 n ++ bytes)
  else if n < 0x10000 then 0xDA :: (bigEndian 2 n ++ bytes)
  else 0xDB :: (bigEndian 4 n ++ bytes)

/-- A natural number. -/
def natural (n : Nat) : List UInt8 :=
  if n < 0x80 then [UInt8.ofNat n]
  else if n < 0x100 then 0xCC :: bigEndian 1 n
  else if n < 0x10000 then 0xCD :: bigEndian 2 n
  else if n < 0x100000000 then 0xCE :: bigEndian 4 n
  else 0xCF :: bigEndian 8 n

/-- The two's complement of a negative number in `count` bytes. -/
def complement (count : Nat) (n : Int) : List UInt8 := bigEndian count (n + Nat.pow 256 count).toNat

/-- An integer of 64 bits. -/
def integer (n : Int) : List UInt8 :=
  if 0 ≤ n then natural n.toNat
  else if -0x20 ≤ n then complement 1 n
  else if -0x80 ≤ n then 0xD0 :: complement 1 n
  else if -0x8000 ≤ n then 0xD1 :: complement 2 n
  else if -0x80000000 ≤ n then 0xD2 :: complement 4 n
  else 0xD3 :: complement 8 n

/-- A number of 16 bits, in full width. -/
def word16 (n : UInt16) : List UInt8 := 0xCD :: bigEndian 2 n.toNat

/-- The start of a map with fewer than 16 pairs. -/
def mapHeader (n : Nat) : List UInt8 := [UInt8.ofNat (0x80 + n)]

/-! ### Reading -/

/-- Reads from the front of a byte sequence, and fails if that has another form or ends. -/
abbrev Reader := StateT (List UInt8) Option

/-- One byte. -/
def byte : Reader UInt8 := fun bytes =>
  match bytes with
  | b :: rest => some (b, rest)
  | [] => none

/-- A number of bytes. -/
def take (n : Nat) : Reader (List UInt8) := fun bytes =>
  if n ≤ bytes.length then some (bytes.splitAt n) else none

/-- A number of the given count of bytes. -/
def number (count : Nat) : Reader Nat := do
  let bytes ← take count
  pure (ofBigEndian bytes)

/-- A number of the given count of bytes in two's complement. -/
def signed (count : Nat) : Reader Int := do
  let n ← number count
  pure (Int.bmod n (Nat.pow 256 count))

/-- How much follows behind the first byte of a text or of binary data. -/
def textLength (code : UInt8) : Reader Nat :=
  if code = 0xC0 then pure 0
  else if 0xA0 ≤ code && code ≤ 0xBF then pure (code.toNat - 0xA0)
  else if code = 0xD9 || code = 0xC4 then number 1
  else if code = 0xDA || code = 0xC5 then number 2
  else if code = 0xDB || code = 0xC6 then number 4
  else failure

/-- A text. -/
def readText : Reader (List UInt8) := do
  let code ← byte
  let n ← textLength code
  take n

/-- An integer of any width, as a number. -/
def readInteger : Reader Int := do
  let code ← byte
  if code = 0xC0 then pure 0
  else if code ≤ 0x7F then pure code.toNat
  else if 0xE0 ≤ code then pure (code.toNat - 256)
  else if code = 0xCC then return (← number 1)
  else if code = 0xCD then return (← number 2)
  else if code = 0xCE then return (← number 4)
  else if code = 0xCF then return (← number 8)
  else if code = 0xD0 then signed 1
  else if code = 0xD1 then signed 2
  else if code = 0xD2 then signed 4
  else if code = 0xD3 then signed 8
  else failure

/-- What stands at the start of a record. -/
inductive Shape where
  /-- Nothing. -/
  | absent
  /-- Values with their names. -/
  | map (count : Nat)
  /-- Values in order. -/
  | array (count : Nat)
  deriving DecidableEq, Repr, Inhabited

/-- The shape of a record. -/
def readShape : Reader Shape := do
  let code ← byte
  if code = 0xC0 then pure .absent
  else if 0x80 ≤ code && code ≤ 0x8F then pure (.map (code.toNat - 0x80))
  else if code = 0xDE then return .map (← number 2)
  else if code = 0xDF then return .map (← number 4)
  else if 0x90 ≤ code && code ≤ 0x9F then pure (.array (code.toNat - 0x90))
  else if code = 0xDC then return .array (← number 2)
  else if code = 0xDD then return .array (← number 4)
  else failure

/-- Passes over bytes. -/
def drop (n : Nat) : Reader Unit := do
  discard (take n)

/-- Passes over what follows the first byte of a value, but for the values inside, and tells how
many of these there are. -/
def skipHead (code : UInt8) : Reader Nat := do
  if code ≤ 0x7F || 0xE0 ≤ code || code = 0xC0 || code = 0xC2 || code = 0xC3 then pure 0
  else if 0x80 ≤ code && code ≤ 0x8F then pure (2 * (code.toNat - 0x80))
  else if 0x90 ≤ code && code ≤ 0x9F then pure (code.toNat - 0x90)
  else if code = 0xCC || code = 0xD0 then skipped (drop 1)
  else if code = 0xCD || code = 0xD1 then skipped (drop 2)
  else if code = 0xCE || code = 0xD2 || code = 0xCA then skipped (drop 4)
  else if code = 0xCF || code = 0xD3 || code = 0xCB then skipped (drop 8)
  else if code = 0xDC then number 2
  else if code = 0xDD then number 4
  else if code = 0xDE then return 2 * (← number 2)
  else if code = 0xDF then return 2 * (← number 4)
  else if 0xD4 ≤ code && code ≤ 0xD8 then skipped (drop (Nat.pow 2 (code.toNat - 0xD4) + 1))
  else if code = 0xC7 then skipped (do drop ((← number 1) + 1))
  else if code = 0xC8 then skipped (do drop ((← number 2) + 1))
  else if code = 0xC9 then skipped (do drop ((← number 4) + 1))
  else skipped (do drop (← textLength code))
where
  /-- Nothing is inside. -/
  skipped (r : Reader Unit) : Reader Nat := do
    r
    pure 0

/-- Passes over values.  The fuel bounds the number of values, those inside included. -/
def skipValues : Nat → Nat → Reader Unit
  | _, 0 => pure ()
  | 0, _ + 1 => failure
  | fuel + 1, todo + 1 => do
    let code ← byte
    let inside ← skipHead code
    skipValues fuel (todo + inside)

/-- Passes over a value. -/
def skip : Reader Unit := do
  skipValues (← get).length 1

/-- Reads a record from pairs of names and values.  Values whose name has no field are passed over.
The fuel bounds the number of pairs. -/
def readPairs {α : Type} (field : List UInt8 → Option (α → Reader α)) :
    Nat → Nat → α → Reader α
  | _, 0, a => pure a
  | 0, _ + 1, _ => failure
  | fuel + 1, count + 1, a => do
    let name ← readText
    match field name with
    | some read =>
      let a ← read a
      readPairs field fuel count a
    | none =>
      skip
      readPairs field fuel count a

/-- Reads the values of a record in order. -/
def readInOrder {α : Type} : List (α → Reader α) → α → Reader α
  | [], a => pure a
  | read :: rest, a => do
    let a ← read a
    readInOrder rest a

/-- Reads a record over `a`: by names, or all fields in order.  Nothing, and no fields at all, stand
for a record that is `blank`. -/
def readRecord {α : Type} (blank : α) (fields : List (List UInt8 × (α → Reader α))) (a : α) :
    Reader α := do
  match ← readShape with
  | .absent => pure blank
  | .map count => readPairs (fun name => fields.lookup name) (← get).length count a
  | .array count =>
    if count = 0 then pure blank
    else if count = fields.length then readInOrder (fields.map Prod.snd) a
    else failure

end Midend.Cache.MessagePack
