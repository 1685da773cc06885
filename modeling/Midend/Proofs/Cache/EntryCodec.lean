import Mathlib.Algebra.Group.Int.Defs
import Mathlib.Algebra.Group.Nat.Defs
import Midend.Cache.Entry

/-!
# Entries survive their stored form

What is written of an entry is read back, field by field.  The only limit is that of the format: a text
has fewer than `2 ^ 32` bytes.

Readers take what they need from the front.  So each law says that a reader that meets some bytes yields a
value and leaves what stands behind them, whatever that is; laws for parts then combine to laws for
records.

## Main definitions

* `MessagePack.Reads`: a reader takes exactly the given bytes and yields a value.
* `MessagePack.ReadsPairs`: so does the reading of named fields.
* `Entry.Fits`: the texts of an entry are not too long for the format.

## Main results

* `ofBigEndian_bigEndian`: a number is read from its bytes.
* `MessagePack.reads_text`, `MessagePack.reads_integer`, `MessagePack.reads_word16`: the parts of a record.
* `MessagePack.ReadsPairs.record`: a record.
* `Entry.decode?_encode`: an entry is read from its stored form.
-/

namespace Midend.Cache

/-! ### Numbers as bytes -/

theorem bigEndian_succ (count n : Nat) :
    bigEndian (count + 1) n = UInt8.ofNat (n / 256 ^ count % 256) :: bigEndian count n := by
  unfold bigEndian
  rw [List.range_succ, List.reverse_append]
  rfl

@[simp] theorem length_bigEndian (count n : Nat) : (bigEndian count n).length = count := by
  simp [bigEndian]

theorem foldl_bigEndian (count n start : Nat) :
    (bigEndian count n).foldl (fun m b => m * 256 + b.toNat) start =
      start * 256 ^ count + n % 256 ^ count := by
  induction count generalizing start with
  | zero => simp [bigEndian, Nat.mod_one]
  | succ count ih =>
    have hbyte : (UInt8.ofNat (n / 256 ^ count % 256)).toNat = n / 256 ^ count % 256 := by
      rw [UInt8.toNat_ofNat', Nat.mod_mod]
    rw [bigEndian_succ, List.foldl_cons, ih, hbyte, Nat.pow_succ, Nat.mod_mul, Nat.add_mul,
      Nat.mul_assoc, Nat.mul_comm 256, Nat.mul_comm (n / 256 ^ count % 256)]
    omega

/-- A number that the bytes have room for is read from them. -/
theorem ofBigEndian_bigEndian {count n : Nat} (h : n < 256 ^ count) :
    ofBigEndian (bigEndian count n) = n := by
  rw [ofBigEndian, foldl_bigEndian, Nat.zero_mul, Nat.zero_add, Nat.mod_eq_of_lt h]

namespace MessagePack

variable {α β : Type}

/-! ### Readers -/

/-- The reader takes exactly these bytes and yields the value, whatever follows. -/
def Reads (r : Reader α) (bytes : List UInt8) (a : α) : Prop :=
  ∀ rest, r.run (bytes ++ rest) = some (a, rest)

theorem Reads.pure (a : α) : Reads (pure a) [] a := fun _ => rfl

theorem Reads.bind {r : Reader α} {k : α → Reader β} {bytes more : List UInt8} {a : α} {b : β}
    (hr : Reads r bytes a) (hk : Reads (k a) more b) : Reads (r >>= k) (bytes ++ more) b := by
  intro rest
  rw [StateT.run_bind, List.append_assoc, hr]
  exact hk rest

/-- A reader that takes nothing more behind another one. -/
theorem Reads.map {r : Reader α} {bytes : List UInt8} {a : α} (hr : Reads r bytes a) (f : α → β) :
    Reads (r >>= fun a => Pure.pure (f a)) bytes (f a) := by
  have h := hr.bind (k := fun a => Pure.pure (f a)) (Reads.pure (f a))
  rwa [List.append_nil] at h

theorem reads_byte (b : UInt8) : Reads byte [b] b := fun _ => rfl

/-- The first byte chooses how the reader goes on. -/
theorem Reads.behind (code : UInt8) {k : UInt8 → Reader α} {bytes : List UInt8} {a : α}
    (hk : Reads (k code) bytes a) : Reads (byte >>= k) (code :: bytes) a :=
  (reads_byte code).bind hk

/-- The first byte says everything. -/
theorem Reads.only {code : UInt8} {k : UInt8 → Reader α} {a : α} (hk : k code = Pure.pure a) :
    Reads (byte >>= k) [code] a :=
  Reads.behind code (hk ▸ Reads.pure a)

theorem reads_take (l : List UInt8) : Reads (take l.length) l l := by
  intro rest
  show (if l.length ≤ (l ++ rest).length then some ((l ++ rest).splitAt l.length) else none) = _
  have hlen : l.length ≤ (l ++ rest).length := by
    rw [List.length_append]
    omega
  rw [if_pos hlen, List.splitAt_eq, List.take_left, List.drop_left]

theorem reads_number (count : Nat) {n : Nat} (h : n < 256 ^ count) :
    Reads (number count) (bigEndian count n) n := by
  have htake := reads_take (bigEndian count n)
  rw [length_bigEndian] at htake
  have hmap := htake.map ofBigEndian
  rwa [ofBigEndian_bigEndian h] at hmap

/-- The two's complement of a negative number is read as that number. -/
theorem reads_signed (count : Nat) {n : Int} (hneg : n < 0) (hlow : -(256 ^ count : Nat) ≤ 2 * n) :
    Reads (signed count) (complement count n) n := by
  have hfits : (n + (256 ^ count : Nat)).toNat < 256 ^ count := by omega
  have hmap := (reads_number count hfits).map fun m : Nat => Int.bmod m (256 ^ count)
  have hvalue : Int.bmod (n + (256 ^ count : Nat)).toNat (256 ^ count) = n := by
    rw [Int.toNat_of_nonneg (by omega), Int.add_bmod_right]
    exact Int.bmod_eq_of_le_mul_two (by omega) (by omega)
  rwa [hvalue] at hmap

/-! ### First bytes -/

section FirstByte

variable {m : Nat} {c low high : UInt8}

theorem toNat_code (hm : m < 256) : (UInt8.ofNat m).toNat = m := by
  rw [UInt8.toNat_ofNat', Nat.mod_eq_of_lt hm]

theorem code_ne (hm : m < 256) (hne : m ≠ c.toNat) : UInt8.ofNat m ≠ c := by
  rintro rfl
  exact hne (toNat_code hm).symm

theorem code_le_iff (hm : m < 256) : UInt8.ofNat m ≤ c ↔ m ≤ c.toNat := by
  rw [UInt8.le_iff_toNat_le, toNat_code hm]

theorem le_code_iff (hm : m < 256) : c ≤ UInt8.ofNat m ↔ c.toNat ≤ m := by
  rw [UInt8.le_iff_toNat_le, toNat_code hm]

theorem code_mem_range (hm : m < 256) (hlow : low.toNat ≤ m) (hhigh : m ≤ high.toNat) :
    (low ≤ UInt8.ofNat m && UInt8.ofNat m ≤ high) = true := by
  rw [Bool.and_eq_true, decide_eq_true_eq, decide_eq_true_eq, le_code_iff hm, code_le_iff hm]
  exact ⟨hlow, hhigh⟩

end FirstByte

/-! ### Texts and integers -/

theorem reads_text {l : List UInt8} (h : l.length < 2 ^ 32) : Reads readText (text l) l := by
  -- A text is read from what tells its length and from its bytes.
  have hcounted : ∀ (code : UInt8) (count : List UInt8), Reads (textLength code) count l.length →
      Reads readText (code :: (count ++ l)) l := fun code count hlength =>
    Reads.behind code (hlength.bind (reads_take l))
  unfold text
  dsimp only
  split
  · next hshort =>
    refine hcounted _ [] ?_
    have hcode : 0xA0 + l.length < 256 := by omega
    have hne : UInt8.ofNat (0xA0 + l.length) ≠ 0xC0 :=
      code_ne hcode (show 0xA0 + l.length ≠ 0xC0 by omega)
    have hrange : (0xA0 ≤ UInt8.ofNat (0xA0 + l.length) && UInt8.ofNat (0xA0 + l.length) ≤ 0xBF) = true :=
      code_mem_range hcode (Nat.le_add_right _ _) (show 0xA0 + l.length ≤ 0xBF by omega)
    unfold textLength
    rw [if_neg hne, if_pos hrange, toNat_code hcode, Nat.add_sub_cancel_left]
    exact Reads.pure _
  · split
    · next hbyte => exact hcounted 0xD9 _ (reads_number 1 hbyte)
    · split
      · next hword => exact hcounted 0xDA _ (reads_number 2 hword)
      · exact hcounted 0xDB _ (reads_number 4 h)

theorem reads_natural {n : Nat} (h : n < 2 ^ 64) : Reads readInteger (natural n) (n : Int) := by
  unfold natural
  split
  · next hsmall =>
    refine Reads.only ?_
    have hcode : n < 256 := by omega
    have hne : UInt8.ofNat n ≠ 0xC0 := code_ne hcode (show n ≠ 0xC0 by omega)
    have hle : UInt8.ofNat n ≤ 0x7F := (code_le_iff hcode).mpr (show n ≤ 0x7F by omega)
    rw [if_neg hne, if_pos hle, toNat_code hcode]
  · split
    · next hbyte => exact Reads.behind 0xCC ((reads_number 1 hbyte).map _)
    · split
      · next hword => exact Reads.behind 0xCD ((reads_number 2 hword).map _)
      · split
        · next hlong => exact Reads.behind 0xCE ((reads_number 4 hlong).map _)
        · exact Reads.behind 0xCF ((reads_number 8 h).map _)

/-- A number just below zero is its own first byte. -/
theorem reads_tiny {n : Int} (hneg : n < 0) (hlow : -0x20 ≤ n) :
    Reads readInteger (complement 1 n) n := by
  have hlt : (n + 256).toNat < 256 := by omega
  have hform : complement 1 n = [UInt8.ofNat (n + 256).toNat] := by
    show bigEndian 1 (n + 256).toNat = _
    rw [bigEndian_succ, Nat.pow_zero, Nat.div_one, Nat.mod_eq_of_lt hlt]
    rfl
  have hne : UInt8.ofNat (n + 256).toNat ≠ 0xC0 :=
    code_ne hlt (show (n + 256).toNat ≠ 0xC0 by omega)
  have hlarge : ¬ UInt8.ofNat (n + 256).toNat ≤ 0x7F :=
    mt (code_le_iff hlt).mp (show ¬ (n + 256).toNat ≤ 0x7F by omega)
  have hrange : 0xE0 ≤ UInt8.ofNat (n + 256).toNat :=
    (le_code_iff hlt).mpr (show 0xE0 ≤ (n + 256).toNat by omega)
  have hvalue : ((n + 256).toNat : Int) - 256 = n := by omega
  rw [hform]
  refine Reads.only ?_
  rw [if_neg hne, if_neg hlarge, if_pos hrange, toNat_code hlt, hvalue]

/-- An integer of 64 bits is read from its shortest form. -/
theorem reads_integer {n : Int} (hlow : -2 ^ 63 ≤ n) (hhigh : n < 2 ^ 63) :
    Reads readInteger (integer n) n := by
  unfold integer
  split
  · next hpos =>
    have hnat := reads_natural (n := n.toNat) (by omega)
    rwa [Int.toNat_of_nonneg hpos] at hnat
  · next hneg =>
    have hneg' : n < 0 := Int.lt_of_not_ge hneg
    split
    · next htiny => exact reads_tiny hneg' htiny
    · split
      · exact Reads.behind 0xD0 (reads_signed 1 hneg' (by omega))
      · split
        · exact Reads.behind 0xD1 (reads_signed 2 hneg' (by omega))
        · split
          · exact Reads.behind 0xD2 (reads_signed 4 hneg' (by omega))
          · exact Reads.behind 0xD3 (reads_signed 8 hneg' (by omega))

theorem reads_word16 (n : UInt16) : Reads readInteger (word16 n) (n.toNat : Int) :=
  Reads.behind 0xCD ((reads_number 2 n.toNat_lt).map _)

/-! ### Records -/

/-- Reading as many named fields as `count` says takes exactly these bytes and turns `a` into `b`.  Each
field takes at least a byte, which bounds the number of fields from the start. -/
structure ReadsPairs (field : List UInt8 → Option (α → Reader α)) (count : Nat) (a : α)
    (bytes : List UInt8) (b : α) : Prop where
  /-- There are enough bytes for the fields. -/
  enough : count ≤ bytes.length
  /-- The fields are read. -/
  reads : ∀ fuel, count ≤ fuel → Reads (readPairs field fuel count a) bytes b

theorem length_text_pos (l : List UInt8) : 0 < (text l).length := by
  unfold text
  dsimp only
  split
  · exact Nat.succ_pos _
  · split
    · exact Nat.succ_pos _
    · split <;> exact Nat.succ_pos _

namespace ReadsPairs

variable {field : List UInt8 → Option (α → Reader α)}

theorem nil (a : α) : ReadsPairs field 0 a [] a where
  enough := Nat.le_refl _
  reads fuel _ := by
    cases fuel <;> exact Reads.pure a

theorem cons {name value more : List UInt8} {read : α → Reader α} {count : Nat} {a b c : α}
    (hname : name.length < 2 ^ 32) (hfield : field name = some read) (hvalue : Reads (read a) value b)
    (hmore : ReadsPairs field count b more c) :
    ReadsPairs field (count + 1) a (text name ++ value ++ more) c where
  enough := by
    have htext := length_text_pos name
    have henough := hmore.enough
    simp only [List.length_append]
    omega
  reads fuel hfuel := by
    obtain ⟨fuel, rfl⟩ : ∃ k, fuel = k + 1 := ⟨fuel - 1, by omega⟩
    rw [List.append_assoc, readPairs]
    refine (reads_text hname).bind ?_
    rw [hfield]
    exact hvalue.bind (hmore.reads fuel (by omega))

/-- A record is read from its fields. -/
theorem record {blank a b : α} {fields : List (List UInt8 × (α → Reader α))} {count : Nat}
    {bytes : List UInt8} (h : ReadsPairs (fun name => fields.lookup name) count a bytes b)
    (hcount : count < 16) : Reads (readRecord blank fields a) (mapHeader count ++ bytes) b := by
  have hshape : Reads readShape (mapHeader count) (.map count) := by
    refine Reads.only ?_
    have hcode : 0x80 + count < 256 := by omega
    have hne : UInt8.ofNat (0x80 + count) ≠ 0xC0 :=
      code_ne hcode (show 0x80 + count ≠ 0xC0 by omega)
    have hrange : (0x80 ≤ UInt8.ofNat (0x80 + count) && UInt8.ofNat (0x80 + count) ≤ 0x8F) = true :=
      code_mem_range hcode (Nat.le_add_right _ _) (show 0x80 + count ≤ 0x8F by omega)
    rw [if_neg hne, if_pos hrange, toNat_code hcode, Nat.add_sub_cancel_left]
  unfold readRecord
  refine hshape.bind fun rest => ?_
  have hfuel : count ≤ (bytes ++ rest).length := by
    have henough := h.enough
    rw [List.length_append]
    omega
  exact h.reads (bytes ++ rest).length hfuel rest

end ReadsPairs

end MessagePack

/-! ### Entries -/

namespace Entry

open MessagePack

theorem reads_count (n : Int64) : Reads readCount (integer n.toInt) n := by
  have hread := (reads_integer n.le_toInt n.toInt_lt).map Int64.ofInt
  rwa [Int64.ofInt_toInt] at hread

theorem reads_schema (n : UInt16) : Reads readSchema (word16 n) n := by
  have hread := (reads_word16 n).map fun m : Int => UInt16.ofNat (m % 0x10000).toNat
  have hlt := n.toNat_lt
  have hmod : ((n.toNat : Int) % 0x10000).toNat = n.toNat := by omega
  rwa [hmod, UInt16.ofNat_toNat] at hread

theorem reads_counts (c start : Counts) :
    Reads (readRecord {} countFields start) (encodeCounts c) c := by
  have hfields : ReadsPairs (fun name => countFields.lookup name) 6 start
      (countPair "Rounds" c.rounds ++ (countPair "Erased" c.erased ++
        (countPair "Folded" c.folded ++ (countPair "CSE" c.cse ++
          (countPair "Propagated" c.propagated ++
            (countPair "DataflowPops" c.dataflowPops ++ [])))))) c :=
    .cons (by decide) rfl ((reads_count _).map _) <|
    .cons (by decide) rfl ((reads_count _).map _) <|
    .cons (by decide) rfl ((reads_count _).map _) <|
    .cons (by decide) rfl ((reads_count _).map _) <|
    .cons (by decide) rfl ((reads_count _).map _) <|
    .cons (by decide) rfl ((reads_count _).map _) <| .nil _
  have hrecord : Reads (readRecord {} countFields start) _ c := hfields.record (by omega)
  simpa only [encodeCounts, List.append_assoc, List.append_nil] using hrecord

/-- The texts of an entry have room in the format. -/
structure Fits (e : Entry) : Prop where
  /-- The name. -/
  name : e.name.length < 2 ^ 32
  /-- The text of the program. -/
  output : e.output.length < 2 ^ 32
  /-- The trace. -/
  trace : e.trace.length < 2 ^ 32

instance (e : Entry) : Decidable e.Fits :=
  decidable_of_iff (e.name.length < 2 ^ 32 ∧ e.output.length < 2 ^ 32 ∧ e.trace.length < 2 ^ 32)
    ⟨fun h => ⟨h.1, h.2.1, h.2.2⟩, fun h => ⟨h.name, h.output, h.trace⟩⟩

/-- **An entry is read from its stored form.** -/
theorem decode?_encode {e : Entry} (h : e.Fits) : decode? e.encode = some e := by
  have hfields : ReadsPairs (fun name => fields.lookup name) 5 {}
      (pair "Schema" (word16 e.schema) ++ (pair "Module" (text e.name) ++
        (pair "Output" (text e.output) ++ (pair "Trace" (text e.trace) ++
          (pair "Stats" (encodeCounts e.stats) ++ []))))) e :=
    .cons (by decide) rfl ((reads_schema _).map _) <|
    .cons (by decide) rfl ((reads_text h.name).map _) <|
    .cons (by decide) rfl ((reads_text h.output).map _) <|
    .cons (by decide) rfl ((reads_text h.trace).map _) <|
    .cons (by decide) rfl ((reads_counts _ _).map _) <| .nil _
  have hrecord : Reads (readRecord {} fields {}) _ e := hfields.record (by omega)
  have hread : Reads (readRecord {} fields {}) e.encode e := by
    simpa only [encode, List.append_assoc, List.append_nil] using hrecord
  rw [decode?, ← List.append_nil e.encode, hread]
  rfl

end Entry

end Midend.Cache
