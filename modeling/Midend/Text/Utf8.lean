/-!
# Reading UTF-8

Source files are bytes.  Reading them yields characters, and one `Symbol.invalid` for each byte
that does not belong to a well-formed character: overlong forms, surrogates, code points above
U+10FFFF, stray continuation bytes and cut-off sequences.

## Main definitions

* `Symbol`: a character, or a byte that is none.
* `Symbol.ofBytes`: the symbols of a byte sequence.
* `lossy`: text with the replacement character for each invalid byte.
-/

namespace Midend.Text

/-- What one step of reading yields. -/
inductive Symbol where
  /-- A well-formed character. -/
  | char (c : Char)
  /-- A byte outside every well-formed character. -/
  | invalid
  deriving DecidableEq, Repr, Inhabited

namespace Symbol

/-- Is the byte a continuation byte? -/
def isCont (b : UInt8) : Bool := 0x80 ≤ b && b ≤ 0xBF

/-- The six bits a continuation byte carries. -/
def contBits (b : UInt8) : Nat := b.toNat % 0x40

/-- The range the second byte of a longer form must lie in: it excludes overlong forms,
surrogates and code points above U+10FFFF. -/
def secondByte (first : UInt8) : UInt8 × UInt8 :=
  if first = 0xE0 then (0xA0, 0xBF)
  else if first = 0xED then (0x80, 0x9F)
  else if first = 0xF0 then (0x90, 0xBF)
  else if first = 0xF4 then (0x80, 0x8F)
  else (0x80, 0xBF)

/-- May `second` follow `first`? -/
def mayFollow (first second : UInt8) : Bool :=
  (secondByte first).1 ≤ second && second ≤ (secondByte first).2

/-- The symbol that starts with the byte `b`, and how many of the bytes behind `b` belong to
it. -/
def first (b : UInt8) (rest : List UInt8) : Symbol × Nat :=
  if b < 0x80 then (.char (Char.ofNat b.toNat), 0)
  else
    match rest with
    | b₁ :: rest₁ =>
      if 0xC2 ≤ b && b ≤ 0xDF && isCont b₁ then
        (.char (Char.ofNat (b.toNat % 0x20 * 0x40 + contBits b₁)), 1)
      else if 0xE0 ≤ b && b ≤ 0xF4 && mayFollow b b₁ then
        match rest₁ with
        | b₂ :: rest₂ =>
          if !isCont b₂ then (.invalid, 0)
          else if b ≤ 0xEF then
            (.char (Char.ofNat
              ((b.toNat % 0x10 * 0x40 + contBits b₁) * 0x40 + contBits b₂)), 2)
          else
            match rest₂ with
            | b₃ :: _ =>
              if isCont b₃ then
                (.char (Char.ofNat (((b.toNat % 0x08 * 0x40 + contBits b₁) * 0x40
                  + contBits b₂) * 0x40 + contBits b₃)), 3)
              else (.invalid, 0)
            | [] => (.invalid, 0)
        | [] => (.invalid, 0)
      else (.invalid, 0)
    | [] => (.invalid, 0)

/-- The symbols of a byte sequence whose first `skip` bytes belong to the symbol before. -/
def ofByteListFrom : Nat → List UInt8 → List Symbol
  | _, [] => []
  | skip + 1, _ :: rest => ofByteListFrom skip rest
  | 0, b :: rest => (first b rest).1 :: ofByteListFrom (first b rest).2 rest

/-- The symbols of a file's content. -/
def ofBytes (bytes : ByteArray) : List Symbol := ofByteListFrom 0 bytes.data.toList

/-- The symbols of a text. -/
def ofString (s : String) : List Symbol := s.toList.map .char

/-- The character a symbol is shown as. -/
def toChar : Symbol → Char
  | .char c => c
  | .invalid => '\uFFFD'

end Symbol

/-- Is the byte sequence well-formed throughout? -/
def isUtf8 (bytes : ByteArray) : Bool :=
  (Symbol.ofBytes bytes).all fun s => s != .invalid

/-- The text of a byte sequence, with the replacement character for each invalid byte. -/
def lossy (bytes : ByteArray) : String :=
  String.ofList ((Symbol.ofBytes bytes).map Symbol.toChar)

end Midend.Text
