import Midend.Proofs.Source.Scanner
import Midend.Proofs.Text.Encoding

/-!
# Lines and places

A file is cut into lines at its newlines, and its bytes and the symbols that are read from them are cut
alike: no character reaches over a newline, and nothing else is read as one.  So a place, which is counted
from symbol to symbol, is a line of the file and a column of that line.  The scanner only ever reads on, and
the places of its tokens are counted that way.

## Main definitions

* `Text.newlines`, `Text.line`: the lines of a file.
* `Position.Inside`: a place in a file.
* `Cursor.Reaches`: reading on from one cursor to another.
* `Position.IsIn`: a place that is reached from the start of a text.
* `TokenStream.places`: where tokens stand, and where they end.

## Main results

* `Symbol.splitOn_ofByteListFrom`: the lines of bytes and of symbols.
* `Position.IsIn.inside`: what is reached from the start of a file is in the file.
* `isIn_of_mem_places`: the tokens of a text stand in the text.
-/

namespace Midend.Text

/-- How many newlines there are in a file. -/
def newlines (src : ByteArray) : Nat := src.data.toList.count 0x0A

/-- A line of a file, without its newline.  Lines count from 1. -/
def line (src : ByteArray) (n : Nat) : List UInt8 := (src.data.toList.splitOn 0x0A).getD (n - 1) []

theorem length_splitOn {α : Type} [BEq α] (a : α) (l : List α) :
    (l.splitOn a).length = l.count a + 1 := by
  induction l with
  | nil => rfl
  | cons b l ih =>
    rw [List.splitOn_cons_eq_if_modifyHead, List.count_cons]
    split
    · rw [List.length_cons, ih]
    · rw [List.length_modifyHead, ih, Nat.add_zero]

namespace Symbol

/-! ### Newlines among bytes -/

variable {b b₁ : UInt8} {bs rest : List UInt8}

theorem secondByte_range (b : UInt8) : 0x80 ≤ (secondByte b).1 ∧ (secondByte b).2 ≤ 0xBF := by
  unfold secondByte
  repeat' split
  all_goals decide

theorem isCont_of_mayFollow (h : mayFollow b b₁ = true) : isCont b₁ = true := by
  obtain ⟨hlow, hhigh⟩ := secondByte_range b
  simp only [mayFollow, Bool.and_eq_true, decide_eq_true_eq] at h
  exact isCont_iff.mpr ⟨Nat.le_trans hlow h.1, Nat.le_trans h.2 hhigh⟩

/-- What follows the first byte of a longer form makes the code point too large for a shorter one. -/
theorem le_of_mayFollow (h : mayFollow b b₁ = true) :
    (b.toNat = 0xE0 → 0xA0 ≤ b₁.toNat) ∧ (b.toNat = 0xF0 → 0x90 ≤ b₁.toNat) := by
  constructor
  · intro hb
    obtain rfl : b = 0xE0 := UInt8.toNat_inj.mp hb
    have hrange : 0xA0 ≤ b₁ ∧ b₁ ≤ 0xBF := by simpa [mayFollow, secondByte] using h
    exact hrange.1
  · intro hb
    obtain rfl : b = 0xF0 := UInt8.toNat_inj.mp hb
    have hrange : 0x90 ≤ b₁ ∧ b₁ ≤ 0xBF := by simpa [mayFollow, secondByte] using h
    exact hrange.1

theorem first_snd_le (b : UInt8) (bs : List UInt8) : (first b bs).2 ≤ bs.length := by
  fun_cases first b bs <;> simp

/-- **No character reaches over a newline.** -/
theorem first_append_newline (b : UInt8) (bs rest : List UInt8) :
    first b (bs ++ 0x0A :: rest) = first b bs := by
  have hcont : isCont 0x0A = false := rfl
  have hfollow : mayFollow b 0x0A = false :=
    Bool.eq_false_iff.mpr fun h => Bool.false_ne_true (isCont_of_mayFollow h)
  unfold first
  split
  · rfl
  · -- A form takes three bytes behind the first at most, so the newline is among those or out of reach.
    rcases bs with _ | ⟨b₁, _ | ⟨b₂, _ | ⟨b₃, bs⟩⟩⟩
    · simp [hcont, hfollow]
    · simp [hcont]
    · simp [hcont]
    · rfl

theorem eq_newline_of_ofNat {n : Nat} (h : Symbol.char (Char.ofNat n) = .char '\n') : n = 0x0A := by
  have hchar : Char.ofNat n = '\n' := Symbol.char.inj h
  by_cases hn : n.isValidChar
  · rw [Char.ofNat, dif_pos hn] at hchar
    exact congrArg Char.toNat hchar
  · -- What is no code point is read as the NUL.
    rw [Char.ofNat, dif_neg hn] at hchar
    cases hchar

/-- **No other bytes are read as a newline.** -/
theorem eq_newline_of_first (h : (first b bs).1 = .char '\n') : b = 0x0A := by
  revert h
  fun_cases first b bs with
  | case1 hb =>
    intro h
    exact UInt8.toNat_inj.mp (eq_newline_of_ofNat h)
  | case2 hb b₁ rest hrange =>
    intro h
    have hcode := eq_newline_of_ofNat h
    simp only [Bool.and_eq_true, decide_eq_true_eq, UInt8.le_iff_toNat_le, UInt8.reduceToNat] at hrange
    omega
  | case4 hb b₁ htwo hrange b₂ rest hcont hthree =>
    intro h
    have hcode := eq_newline_of_ofNat h
    simp only [Bool.and_eq_true, decide_eq_true_eq, UInt8.le_iff_toNat_le, UInt8.reduceToNat] at hrange
    have hsecond := isCont_iff.mp (isCont_of_mayFollow hrange.2)
    have hlong := le_of_mayFollow hrange.2
    have hle : b.toNat ≤ 0xEF := hthree
    simp only [contBits] at hcode
    omega
  | case5 hb b₁ htwo hrange b₂ hcont hthree b₃ rest hcont' =>
    intro h
    have hcode := eq_newline_of_ofNat h
    simp only [Bool.and_eq_true, decide_eq_true_eq, UInt8.le_iff_toNat_le, UInt8.reduceToNat] at hrange
    have hsecond := isCont_iff.mp (isCont_of_mayFollow hrange.2)
    have hlong := le_of_mayFollow hrange.2
    have hle : ¬b.toNat ≤ 0xEF := hthree
    simp only [contBits] at hcode
    omega
  | _ =>
    intro h
    cases h

/-! ### Lines -/

/-- The symbols of a line end before its newline, and the next line is read on its own. -/
theorem ofByteListFrom_append_newline : ∀ {skip : Nat} {bs : List UInt8} (rest : List UInt8),
    skip ≤ bs.length → ofByteListFrom skip (bs ++ 0x0A :: rest) =
      ofByteListFrom skip bs ++ .char '\n' :: ofByteListFrom 0 rest
  | 0, [], _, _ => rfl
  | 0, b :: bs, rest, _ => by
    have ih := ofByteListFrom_append_newline rest (first_snd_le b bs)
    rw [List.cons_append, ofByteListFrom, ofByteListFrom, first_append_newline, ih, List.cons_append]
  | skip + 1, b :: bs, rest, h => by
    rw [List.cons_append, ofByteListFrom, ofByteListFrom]
    exact ofByteListFrom_append_newline rest (Nat.le_of_succ_le_succ h)

theorem newline_mem_of_ofByteListFrom : ∀ {skip : Nat} {bs : List UInt8},
    Symbol.char '\n' ∈ ofByteListFrom skip bs → 0x0A ∈ bs
  | 0, b :: bs, h => by
    rw [ofByteListFrom, List.mem_cons] at h
    rcases h with hfirst | hrest
    · rw [eq_newline_of_first hfirst.symm]
      exact List.mem_cons_self
    · exact List.mem_cons_of_mem b (newline_mem_of_ofByteListFrom hrest)
  | skip + 1, b :: bs, h => List.mem_cons_of_mem b (@newline_mem_of_ofByteListFrom skip bs h)

/-- **The lines of the bytes are the lines of the symbols.** -/
theorem splitOn_ofByteListFrom (bs : List UInt8) :
    (ofByteListFrom 0 bs).splitOn (.char '\n') = (bs.splitOn 0x0A).map (ofByteListFrom 0) := by
  by_cases hmem : 0x0A ∈ bs
  · -- The first line is cut off, and the others are read on their own.
    obtain ⟨line, rest, rfl, hline⟩ := List.eq_append_cons_of_mem hmem
    have ih := splitOn_ofByteListFrom rest
    have hsymbols : Symbol.char '\n' ∉ ofByteListFrom 0 line :=
      fun h => hline (newline_mem_of_ofByteListFrom h)
    rw [ofByteListFrom_append_newline rest (Nat.zero_le _), List.splitOn_append_cons_self_of_not_mem hsymbols,
      List.splitOn_append_cons_self_of_not_mem hline, ih, List.map_cons]
  · have hsymbols : Symbol.char '\n' ∉ ofByteListFrom 0 bs :=
      fun h => hmem (newline_mem_of_ofByteListFrom h)
    rw [List.splitOn_eq_singleton hsymbols, List.splitOn_eq_singleton hmem, List.map_singleton]
termination_by bs.length

end Symbol

end Midend.Text

namespace Midend.Source

open Midend.Text (Symbol)

/-! ### Places -/

/-- The place behind symbols. -/
def Position.afterAll (pos : Position) (l : List Symbol) : Position := l.foldl Position.after pos

/-- The place is in the file: it is on one of the lines, before or behind one of the characters.  An
invalid byte counts as a character. -/
structure Position.Inside (pos : Position) (src : ByteArray) : Prop where
  /-- Lines count from 1. -/
  one_le_line : 1 ≤ pos.line
  /-- Each newline starts a line. -/
  line_le : pos.line ≤ 1 + Text.newlines src
  /-- Columns count from 1. -/
  one_le_column : 1 ≤ pos.column
  /-- The last place of a line is the one behind its last character. -/
  column_le : pos.column ≤ 1 + (Symbol.ofByteListFrom 0 (Text.line src pos.line)).length

/-- A place that is reached from the start is on one of the lines.  Only the first line does not start
at its first column. -/
theorem Position.exists_line_afterAll (before rest : List Symbol) : ∀ start : Position,
    1 ≤ start.column → ∃ n line, ((before ++ rest).splitOn (.char '\n'))[n]? = some line ∧
      (start.afterAll before).line = start.line + n ∧ 1 ≤ (start.afterAll before).column ∧
      (start.afterAll before).column ≤ (if n = 0 then start.column else 1) + line.length := by
  induction before with
  | nil =>
    intro start hstart
    obtain ⟨line, lines, hlines⟩ := List.exists_cons_of_ne_nil (List.splitOn_ne_nil (.char '\n') rest)
    exact ⟨0, line, by rw [List.nil_append, hlines]; rfl, rfl, hstart, Nat.le_add_right _ _⟩
  | cons s before ih =>
    intro start hstart
    rw [List.cons_append, List.splitOn_cons_eq_if_modifyHead]
    by_cases hs : s = .char '\n'
    · -- The lines behind the newline start at their first columns.
      obtain ⟨n, line, hn, hline, hone, hcolumn⟩ := ih ⟨start.line + 1, 1⟩ (Nat.le_refl 1)
      have hafter : start.afterAll (s :: before) = Position.afterAll ⟨start.line + 1, 1⟩ before := by
        rw [afterAll, List.foldl_cons, after, if_pos hs]
        rfl
      rw [hafter, if_pos (beq_iff_eq.mpr hs)]
      refine ⟨n + 1, line, hn, ?_, hone, ?_⟩
      · rw [hline]
        exact Nat.add_right_comm start.line 1 n
      · rw [ite_self] at hcolumn
        exact hcolumn
    · -- The symbol belongs to the first of the lines.
      obtain ⟨n, line, hn, hline, hone, hcolumn⟩ :=
        ih ⟨start.line, start.column + 1⟩ (Nat.le_add_left 1 _)
      have hafter : start.afterAll (s :: before) =
          Position.afterAll ⟨start.line, start.column + 1⟩ before := by
        rw [afterAll, List.foldl_cons, after, if_neg hs]
        rfl
      rw [hafter, if_neg (fun h => hs (beq_iff_eq.mp h))]
      obtain ⟨first, lines, hlines⟩ :=
        List.exists_cons_of_ne_nil (List.splitOn_ne_nil (.char '\n') (before ++ rest))
      rw [hlines] at hn ⊢
      cases n with
      | zero =>
        obtain rfl : first = line := Option.some.inj hn
        refine ⟨0, s :: first, rfl, hline, hone, ?_⟩
        simp only [if_true, List.length_cons] at hcolumn ⊢
        omega
      | succ n => exact ⟨n + 1, line, hn, hline, hone, hcolumn⟩

/-! ### Reading on -/

/-- Reading on from the first cursor leads to the second one: some symbols are passed over, and the
place is counted on. -/
def Cursor.Reaches (c c' : Cursor) : Prop :=
  ∃ taken, c.rest = taken ++ c'.rest ∧ c'.pos = c.pos.afterAll taken

/-- A place that is reached from the start of a text. -/
def Position.IsIn (pos : Position) (text : List Symbol) : Prop :=
  ∃ rest, Cursor.Reaches ⟨text, ⟨1, 1⟩⟩ ⟨rest, pos⟩

/-- **What is reached from the start of a file is in the file.** -/
theorem Position.IsIn.inside {pos : Position} {src : ByteArray} (h : pos.IsIn (Symbol.ofBytes src)) :
    pos.Inside src := by
  obtain ⟨rest, taken, htext, hpos⟩ := h
  obtain ⟨n, line, hn, hline, hone, hcolumn⟩ := exists_line_afterAll taken rest ⟨1, 1⟩ (Nat.le_refl 1)
  rw [← hpos] at hline hone hcolumn
  rw [← htext, Symbol.ofBytes, Symbol.splitOn_ofByteListFrom, List.getElem?_map, Option.map_eq_some_iff]
    at hn
  obtain ⟨bytes, hbytes, rfl⟩ := hn
  have hlt : n < (src.data.toList.splitOn 0x0A).length := (List.getElem?_eq_some_iff.mp hbytes).1
  rw [Text.length_splitOn] at hlt
  have hbytes' : Text.line src pos.line = bytes := by
    rw [Text.line, hline, Nat.add_sub_cancel_left, List.getD_eq_getElem?_getD, hbytes, Option.getD_some]
  refine ⟨?_, ?_, hone, ?_⟩
  · rw [hline]
    exact Nat.le_add_right 1 n
  · rw [hline, Text.newlines]
    exact Nat.add_le_add_left (Nat.le_of_lt_succ hlt) 1
  · rw [hbytes']
    rwa [ite_self] at hcolumn

namespace Cursor.Reaches

variable {c c₁ c₂ : Cursor}

theorem refl (c : Cursor) : c.Reaches c := ⟨[], rfl, rfl⟩

theorem trans (h₁ : c.Reaches c₁) (h₂ : c₁.Reaches c₂) : c.Reaches c₂ := by
  obtain ⟨taken₁, hrest₁, hpos₁⟩ := h₁
  obtain ⟨taken₂, hrest₂, hpos₂⟩ := h₂
  refine ⟨taken₁ ++ taken₂, ?_, ?_⟩
  · rw [hrest₁, hrest₂, List.append_assoc]
  · rw [hpos₂, hpos₁, Position.afterAll, Position.afterAll, Position.afterAll, List.foldl_append]

theorem cons (s : Symbol) (rest : List Symbol) (pos : Position) :
    Cursor.Reaches ⟨s :: rest, pos⟩ ⟨rest, pos.after s⟩ := ⟨[s], rfl, rfl⟩

theorem advance (c : Cursor) : c.Reaches c.advance := by
  obtain ⟨rest, pos⟩ := c
  cases rest with
  | nil => exact refl _
  | cons s rest => exact cons s rest pos

theorem span (q : Char → Bool) (c : Cursor) : c.Reaches (c.span q).2 := by
  obtain ⟨rest, pos⟩ := c
  change Cursor.Reaches ⟨rest, pos⟩ (Source.span q pos rest).2
  fun_induction Source.span q pos rest with
  | case1 pos ch rest hq cs after hspan ih =>
    rw [hspan] at ih
    exact (cons (.char ch) rest pos).trans ih
  | case2 => exact refl _
  | case3 => exact refl _

theorem skipComment (star : Bool) (c : Cursor) :
    c.Reaches (skipComment star c.pos c.rest).2 := by
  obtain ⟨rest, pos⟩ := c
  change Cursor.Reaches ⟨rest, pos⟩ (Source.skipComment star pos rest).2
  fun_induction Source.skipComment star pos rest with
  | case1 => exact refl _
  | case2 => exact refl _
  | case3 star pos s rest => exact cons s rest pos
  | case4 star pos s rest hread hopen ih => exact (cons s rest pos).trans ih

theorem readInteger (d : Char) (c : Cursor) : c.Reaches (readInteger d c).2.2 := by
  unfold Source.readInteger
  split
  · rcases radixMark_eq c.peek? with hmark | ⟨m, radix, hpeek, hmark⟩
    · rw [hmark]
      exact span _ c
    · rw [hpeek, hmark]
      exact (advance c).trans (span _ _)
  · exact span _ c

end Cursor.Reaches

/-! ### Tokens -/

/-- Where the tokens of a stream stand, and where it ends. -/
def TokenStream.places : TokenStream → List Position
  | .eof pos => [pos]
  | .broken pos _ => [pos]
  | .cons t rest => t.pos :: rest.places

/-- All tokens of the stream stand where reading on from the cursor leads to. -/
def TokenStream.Stands (c : Cursor) (s : TokenStream) : Prop :=
  ∀ pos ∈ s.places, ∃ rest, c.Reaches ⟨rest, pos⟩

namespace TokenStream.Stands

variable {c c' : Cursor}

theorem of_reaches {s : TokenStream} (h : c.Reaches c') (hs : s.Stands c') : s.Stands c := by
  intro pos hpos
  obtain ⟨rest, hrest⟩ := hs pos hpos
  exact ⟨rest, h.trans hrest⟩

theorem eof (c : Cursor) : TokenStream.Stands c (.eof c.pos) := by
  intro pos hpos
  obtain rfl := List.mem_singleton.mp hpos
  exact ⟨c.rest, .refl c⟩

theorem broken (c : Cursor) (e : LexError) : TokenStream.Stands c (.broken c.pos e) := by
  intro pos hpos
  obtain rfl := List.mem_singleton.mp hpos
  exact ⟨c.rest, .refl c⟩

theorem deliver {kind : TokenKind} {text : String} {error? : Option LexError} {rest : TokenStream}
    (h : c.Reaches c') (hrest : rest.Stands c') :
    TokenStream.Stands c (deliver ⟨kind, text, c.pos⟩ error? c' rest) := by
  unfold Source.deliver
  split
  · exact of_reaches h (broken c' _)
  · split
    · exact of_reaches h (broken c' _)
    · intro pos hpos
      rcases List.mem_cons.mp hpos with rfl | hpos
      · exact ⟨c.rest, .refl c⟩
      · exact of_reaches h hrest pos hpos

end TokenStream.Stands

theorem stands_tokensFrom (fuel : Nat) (c : Cursor) : (tokensFrom fuel c).Stands c := by
  induction fuel generalizing c with
  | zero => exact .eof c
  | succ fuel ih =>
    unfold tokensFrom
    refine .of_reaches (.span isBlank c) ?_
    extract_lets c
    split
    · exact .broken c _
    · split
      · exact .eof c
      · next ch hpeek =>
        split
        · exact .deliver (.span _ c) (ih _)
        · split
          · exact .deliver ((Cursor.Reaches.advance c).trans (.readInteger ch _)) (ih _)
          · split
            · -- A comment up to the end of the line.
              have hline := Cursor.Reaches.span (fun x => x ≠ '\n' && x.toNat ≠ 0) c.advance
              refine .of_reaches ((Cursor.Reaches.advance c).trans hline) ?_
              split
              · exact .broken _ _
              · exact ih _
            · split
              · -- A comment up to its closing mark.
                split
                next closed after hskip =>
                have hcomment := Cursor.Reaches.skipComment false c.advance.advance
                rw [hskip] at hcomment
                refine .of_reaches (((Cursor.Reaches.advance c).trans (.advance _)).trans hcomment) ?_
                split
                · exact .broken _ _
                · split
                  · exact ih _
                  · exact .broken _ _
              · exact .deliver (.advance c) (ih _)

/-- A byte order mark takes the first column. -/
theorem Cursor.Reaches.start (text : List Symbol) :
    Cursor.Reaches ⟨text, ⟨1, 1⟩⟩ (Cursor.start text) := by
  unfold Cursor.start
  split
  · exact cons _ _ _
  · exact refl _

/-- **The tokens of a text stand in the text.** -/
theorem isIn_of_mem_places {text : List Symbol} {pos : Position}
    (h : pos ∈ (TokenStream.ofSymbols text).places) : pos.IsIn text :=
  (stands_tokensFrom _ _).of_reaches (.start text) pos h

end Midend.Source
