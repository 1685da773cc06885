/-!
# Lower case

The small letters that belong to the capitals of Unicode 17.0, the version that the runtime of the
program comes with, by the simple mapping: each capital has one, and a text keeps its number of
characters.

* `smallLetter`: the small letter of a capital.
* `toLowerCase`: a text with its capitals replaced.
-/

namespace Midend.Text

/-- Capitals that stand before their small letters: where they begin, and how many there are. -/
def alternating : List (Nat × Nat) :=
  [(0x100, 24), (0x132, 3), (0x139, 8), (0x14A, 23), (0x179, 3), (0x182, 2), (0x187, 1),
   (0x18B, 1), (0x191, 1), (0x198, 1), (0x1A0, 3), (0x1A7, 1), (0x1AC, 1), (0x1AF, 1), (0x1B3, 2),
   (0x1B8, 1), (0x1BC, 1), (0x1C5, 1), (0x1C8, 1), (0x1CB, 9), (0x1DE, 9), (0x1F2, 2),
   (0x1F8, 20), (0x222, 9), (0x23B, 1), (0x241, 1), (0x246, 5), (0x370, 2), (0x376, 1),
   (0x3D8, 12), (0x3F7, 1), (0x3FA, 1), (0x460, 17), (0x48A, 27), (0x4C1, 7), (0x4D0, 48),
   (0x1C89, 1), (0x1E00, 75), (0x1EA0, 48), (0x2183, 1), (0x2C60, 1), (0x2C67, 3), (0x2C72, 1),
   (0x2C75, 1), (0x2C80, 50), (0x2CEB, 2), (0x2CF2, 1), (0xA640, 23), (0xA680, 14), (0xA722, 7),
   (0xA732, 31), (0xA779, 2), (0xA77E, 5), (0xA78B, 1), (0xA790, 2), (0xA796, 10), (0xA7B4, 8),
   (0xA7C7, 2), (0xA7CC, 8), (0xA7F5, 1)]

/-- Capitals that follow each other: where they begin, how many there are, and where their small letters
begin. -/
def consecutive : List (Nat × Nat × Nat) :=
  [(0xC0, 23, 0xE0), (0xD8, 7, 0xF8), (0x189, 2, 0x256), (0x1B1, 2, 0x28A), (0x388, 3, 0x3AD),
   (0x38E, 2, 0x3CD), (0x391, 17, 0x3B1), (0x3A3, 9, 0x3C3), (0x3FD, 3, 0x37B),
   (0x400, 16, 0x450), (0x410, 32, 0x430), (0x531, 38, 0x561), (0x10A0, 38, 0x2D00),
   (0x13A0, 80, 0xAB70), (0x13F0, 6, 0x13F8), (0x1C90, 43, 0x10D0), (0x1CBD, 3, 0x10FD),
   (0x1F08, 8, 0x1F00), (0x1F18, 6, 0x1F10), (0x1F28, 8, 0x1F20), (0x1F38, 8, 0x1F30),
   (0x1F48, 6, 0x1F40), (0x1F68, 8, 0x1F60), (0x1F88, 8, 0x1F80), (0x1F98, 8, 0x1F90),
   (0x1FA8, 8, 0x1FA0), (0x1FB8, 2, 0x1FB0), (0x1FBA, 2, 0x1F70), (0x1FC8, 4, 0x1F72),
   (0x1FD8, 2, 0x1FD0), (0x1FDA, 2, 0x1F76), (0x1FE8, 2, 0x1FE0), (0x1FEA, 2, 0x1F7A),
   (0x1FF8, 2, 0x1F78), (0x1FFA, 2, 0x1F7C), (0x2160, 16, 0x2170), (0x24B6, 26, 0x24D0),
   (0x2C00, 48, 0x2C30), (0x2C7E, 2, 0x23F), (0xFF21, 26, 0xFF41), (0x10400, 40, 0x10428),
   (0x104B0, 36, 0x104D8), (0x10570, 11, 0x10597), (0x1057C, 15, 0x105A3), (0x1058C, 7, 0x105B3),
   (0x10594, 2, 0x105BB), (0x10C80, 51, 0x10CC0), (0x10D50, 22, 0x10D70), (0x118A0, 32, 0x118C0),
   (0x16E40, 32, 0x16E60), (0x16EA0, 25, 0x16EBB), (0x1E900, 34, 0x1E922)]

/-- Single capitals and their small letters. -/
def single : List (Nat × Nat) :=
  [(0x130, 0x69), (0x178, 0xFF), (0x181, 0x253), (0x186, 0x254), (0x18E, 0x1DD), (0x18F, 0x259),
   (0x190, 0x25B), (0x193, 0x260), (0x194, 0x263), (0x196, 0x269), (0x197, 0x268), (0x19C, 0x26F),
   (0x19D, 0x272), (0x19F, 0x275), (0x1A6, 0x280), (0x1A9, 0x283), (0x1AE, 0x288), (0x1B7, 0x292),
   (0x1C4, 0x1C6), (0x1C7, 0x1C9), (0x1CA, 0x1CC), (0x1F1, 0x1F3), (0x1F6, 0x195), (0x1F7, 0x1BF),
   (0x220, 0x19E), (0x23A, 0x2C65), (0x23D, 0x19A), (0x23E, 0x2C66), (0x243, 0x180),
   (0x244, 0x289), (0x245, 0x28C), (0x37F, 0x3F3), (0x386, 0x3AC), (0x38C, 0x3CC), (0x3CF, 0x3D7),
   (0x3F4, 0x3B8), (0x3F9, 0x3F2), (0x4C0, 0x4CF), (0x10C7, 0x2D27), (0x10CD, 0x2D2D),
   (0x1E9E, 0xDF), (0x1F59, 0x1F51), (0x1F5B, 0x1F53), (0x1F5D, 0x1F55), (0x1F5F, 0x1F57),
   (0x1FBC, 0x1FB3), (0x1FCC, 0x1FC3), (0x1FEC, 0x1FE5), (0x1FFC, 0x1FF3), (0x2126, 0x3C9),
   (0x212A, 0x6B), (0x212B, 0xE5), (0x2132, 0x214E), (0x2C62, 0x26B), (0x2C63, 0x1D7D),
   (0x2C64, 0x27D), (0x2C6D, 0x251), (0x2C6E, 0x271), (0x2C6F, 0x250), (0x2C70, 0x252),
   (0xA77D, 0x1D79), (0xA78D, 0x265), (0xA7AA, 0x266), (0xA7AB, 0x25C), (0xA7AC, 0x261),
   (0xA7AD, 0x26C), (0xA7AE, 0x26A), (0xA7B0, 0x29E), (0xA7B1, 0x287), (0xA7B2, 0x29D),
   (0xA7B3, 0xAB53), (0xA7C4, 0xA794), (0xA7C5, 0x282), (0xA7C6, 0x1D8E), (0xA7CB, 0x264),
   (0xA7DC, 0x19B)]

/-- The code point of the small letter of a capital above ASCII. -/
def smallAbove? (n : Nat) : Option Nat :=
  if alternating.any fun (first, count) => first ≤ n && n < first + 2 * count && (n - first) % 2 == 0 then
    some (n + 1)
  else
    match consecutive.find? fun (first, count, _) => first ≤ n && n < first + count with
    | some (first, _, small) => some (small + (n - first))
    | none => single.lookup n

/-- The small letter of a capital, and every other character itself. -/
def smallLetter (c : Char) : Char :=
  if c.toNat < 0x80 then c.toLower else (smallAbove? c.toNat).elim c Char.ofNat

/-- A text in lower case. -/
def toLowerCase (s : String) : String := String.ofList (s.toList.map smallLetter)

end Midend.Text
