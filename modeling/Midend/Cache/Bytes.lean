/-!
# Numbers as bytes

A number is written with a fixed count of bytes, the high byte first.

## Main definitions

* `bigEndian`, `ofBigEndian`: the bytes of a number, and the number of bytes.
-/

namespace Midend.Cache

/-- The last `count` bytes of a number, the high byte first. -/
def bigEndian (count n : Nat) : List UInt8 :=
  (List.range count).reverse.map fun k => UInt8.ofNat (n / Nat.pow 256 k % 256)

/-- The number that bytes write, the high byte first. -/
def ofBigEndian (bytes : List UInt8) : Nat := bytes.foldl (fun n b => n * 256 + b.toNat) 0

end Midend.Cache
