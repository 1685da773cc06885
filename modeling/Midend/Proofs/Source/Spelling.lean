import Midend.Proofs.Source.ParserInstrs

/-!
# Spelled text

A text can be put together from pieces: blanks, marks, words, names and numbers.  If no two pieces
run together, the scanner finds exactly these pieces again.

## Main definitions

* `Piece`: a piece of text.
* `Legible`: every piece can be read, and none runs into the next one.
* `Spelled`: the tokens of pieces.

## Main results

* `magnitude_repr`: a number is read as itself.
* `exists_spelled`: the tokens of a legible text.
-/

namespace Midend.Source

open Midend.Text (Symbol)

/-! ### Pieces -/

/-- The marks that occur in spelled text. -/
def marks : List Char := ['\n', '%', '@', '=', ':', ',', '(', ')', '-', '\x7b', '\x7d']

/-- A piece of text. -/
inductive Piece where
  /-- A blank, which is no token. -/
  | blank
  /-- A mark. -/
  | mark (c : Char)
  /-- A given word. -/
  | word (w : String)
  /-- A name. -/
  | name (n : String)
  /-- A number. -/
  | number (n : Nat)
  deriving DecidableEq, Repr

/-- The text of a name. -/
def IsNameText (n : String) : Prop := IsWordText n.toList ∨ IsInteger n.toList

namespace Piece

/-- The characters of a piece. -/
def chars : Piece → List Char
  | blank => [' ']
  | mark c => [c]
  | word w => w.toList
  | name n => n.toList
  | number n => n.repr.toList

/-- The piece is a token of its own. -/
def Proper : Piece → Prop
  | blank => True
  | mark c => c ∈ marks
  | word w => IsWordText w.toList
  | name n => IsNameText n
  | number _ => True

/-- The piece goes on as long as letters and digits follow. -/
def isOpen : Piece → Bool
  | blank | mark _ => false
  | _ => true

/-- The token is that of the piece. -/
def Shows : Piece → Token → Prop
  | blank, _ => False
  | mark c, t => t.IsMark c
  | word w, t => t.IsWord w
  | name n, t => t.IsName ∧ t.text = n
  | number n, t => t.kind = .int ∧ t.text = n.repr

end Piece

/-- Every piece is a token of its own, and no two of them run together. -/
def Legible : List Piece → Prop
  | [] => True
  | a :: rest => a.Proper ∧ (a.isOpen = true → ∀ b ∈ rest.head?, b.isOpen = false) ∧ Legible rest

/-- The tokens of pieces. -/
inductive Spelled : List Piece → List Token → Prop where
  | nil : Spelled [] []
  | blank {ps : List Piece} {l : List Token} : Spelled ps l → Spelled (.blank :: ps) l
  | token {a : Piece} {ps : List Piece} {t : Token} {l : List Token} : a.Shows t → Spelled ps l →
      Spelled (a :: ps) (t :: l)

section Pieces

variable {ps qs : List Piece} {l : List Token}

@[simp] theorem spelled_nil : Spelled [] l ↔ l = [] := by
  constructor
  · rintro ⟨⟩
    rfl
  · rintro rfl
    exact .nil

@[simp] theorem spelled_blank : Spelled (.blank :: ps) l ↔ Spelled ps l := by
  constructor
  · intro h
    cases h with
    | blank h => exact h
    | token ht => exact ht.elim
  · exact .blank

theorem spelled_cons {a : Piece} (ha : a ≠ .blank) :
    Spelled (a :: ps) l ↔ ∃ t l', a.Shows t ∧ Spelled ps l' ∧ l = t :: l' := by
  constructor
  · intro h
    cases h with
    | blank h => exact absurd rfl ha
    | token ht h => exact ⟨_, _, ht, h, rfl⟩
  · rintro ⟨t, l', ht, h, rfl⟩
    exact .token ht h

@[simp] theorem spelled_mark {c : Char} :
    Spelled (.mark c :: ps) l ↔ ∃ t l', t.IsMark c ∧ Spelled ps l' ∧ l = t :: l' :=
  spelled_cons (by simp)

@[simp] theorem spelled_word {w : String} :
    Spelled (.word w :: ps) l ↔ ∃ t l', t.IsWord w ∧ Spelled ps l' ∧ l = t :: l' :=
  spelled_cons (by simp)

@[simp] theorem spelled_name {n : String} :
    Spelled (.name n :: ps) l ↔ ∃ t l', (t.IsName ∧ t.text = n) ∧ Spelled ps l' ∧ l = t :: l' :=
  spelled_cons (by simp)

@[simp] theorem spelled_number {n : Nat} :
    Spelled (.number n :: ps) l ↔
      ∃ t l', (t.kind = .int ∧ t.text = n.repr) ∧ Spelled ps l' ∧ l = t :: l' :=
  spelled_cons (by simp)

@[simp] theorem spelled_append :
    Spelled (ps ++ qs) l ↔ ∃ l₁ l₂, Spelled ps l₁ ∧ Spelled qs l₂ ∧ l = l₁ ++ l₂ := by
  induction ps generalizing l with
  | nil => simp
  | cons a ps ih =>
    by_cases ha : a = .blank
    · subst ha
      simp [ih]
    · simp only [List.cons_append, spelled_cons ha, ih]
      constructor
      · rintro ⟨t, _, ht, ⟨l₁, l₂, h₁, h₂, rfl⟩, rfl⟩
        exact ⟨t :: l₁, l₂, ⟨t, l₁, ht, h₁, rfl⟩, h₂, rfl⟩
      · rintro ⟨_, l₂, ⟨t, l₁, ht, h₁, rfl⟩, h₂, rfl⟩
        exact ⟨t, l₁ ++ l₂, ht, ⟨l₁, l₂, h₁, h₂, rfl⟩, rfl⟩

/-- Pieces do not run together across a blank or a mark. -/
theorem legible_append_cons {a : Piece} (ha : a.isOpen = false) :
    Legible (ps ++ a :: qs) ↔ Legible ps ∧ a.Proper ∧ Legible qs := by
  induction ps with
  | nil => simp [Legible, ha]
  | cons b ps ih =>
    have hhead : (∀ c ∈ (ps ++ a :: qs).head?, c.isOpen = false) ↔ ∀ c ∈ ps.head?, c.isOpen = false := by
      cases ps with
      | nil => simp [ha]
      | cons c ps => rfl
    simp only [List.cons_append, Legible, ih, hhead, and_assoc]

end Pieces

/-! ### Numbers -/

/-- The first digit of a positive number is no zero. -/
theorem exists_toDigits_eq {n : Nat} (hn : 0 < n) : ∃ d ds, Nat.toDigits 10 n = d :: ds ∧ d ≠ '0' := by
  induction n using Nat.strongRecOn with
  | ind n ih =>
    by_cases hlt : n < 10
    · refine ⟨n.digitChar, [], Nat.toDigits_of_lt_base hlt, ?_⟩
      have hdigit : ∀ m < 10, 0 < m → m.digitChar ≠ '0' := by decide
      exact hdigit n hlt hn
    · obtain ⟨d, ds, hds, hd⟩ := ih (n / 10) (by omega) (by omega)
      refine ⟨d, ds ++ [(n % 10).digitChar], ?_, hd⟩
      rw [Nat.toDigits_of_base_le (by omega) (by omega), hds, List.cons_append]

theorem isAsciiDigit_of_mem_toDigits {n : Nat} {c : Char} (hc : c ∈ Nat.toDigits 10 n) :
    Text.isAsciiDigit c = true := by
  have hdigit := Nat.isDigit_of_mem_toDigits (by omega) (by omega) hc
  simp only [Char.isDigit, Bool.and_eq_true, decide_eq_true_eq] at hdigit
  simp only [Text.isAsciiDigit, le_iff_toNat_le, Bool.and_eq_true, decide_eq_true_eq]
  exact hdigit

theorem ne_underscore_of_mem_toDigits {n : Nat} {c : Char} (hc : c ∈ Nat.toDigits 10 n) :
    c ≠ '_' := by
  rintro rfl
  exact absurd (isAsciiDigit_of_mem_toDigits hc) (by decide)

theorem isInteger_repr (n : Nat) : IsInteger n.repr.toList := by
  rw [Nat.toList_repr]
  by_cases hn : n = 0
  · subst hn
    exact @IsInteger.octal [] rfl rfl (by decide)
  · obtain ⟨d, ds, hds, hd⟩ := exists_toDigits_eq (Nat.pos_of_ne_zero hn)
    have hline : ∀ c ∈ d :: ds, c ≠ '_' := hds ▸ fun c hc => ne_underscore_of_mem_toDigits hc
    have hdigit : ∀ c ∈ d :: ds, Text.isAsciiDigit c = true :=
      hds ▸ fun c hc => isAsciiDigit_of_mem_toDigits hc
    rw [hds]
    refine .decimal (hdigit d List.mem_cons_self) hd ?_ (integerError?_eq_none_iff.mpr
      ⟨⟨d, List.mem_cons_self, hline d List.mem_cons_self⟩, fun _ _ => rfl, ?_⟩)
    · rw [List.all_eq_true]
      intro c hc
      simp [Radix.continues, hdigit c (List.mem_cons_of_mem d hc)]
    · have hnone : (d :: ds).contains '_' = false := by
        rw [List.contains_eq_mem, decide_eq_false_iff_not]
        exact fun hmem => hline _ hmem rfl
      rw [hnone, Bool.false_and]

theorem foldl_digits_eq (l : List Char) (acc : Nat) (hl : ∀ c ∈ l, Text.isAsciiDigit c = true) :
    l.foldl (fun m c => m * 10 + Text.digitOf c) acc = Nat.ofDigitChars 10 l acc := by
  induction l generalizing acc with
  | nil => rfl
  | cons c l ih =>
    have hdigit : Text.digitOf c = c.toNat - '0'.toNat := digitOf_eq (if_pos (hl c List.mem_cons_self))
    rw [List.foldl_cons, ih _ fun x hx => hl x (List.mem_cons_of_mem c hx), hdigit, Nat.mul_comm]
    rfl

/-- **A number is read as itself.** -/
theorem magnitude_repr (n : Nat) : Text.magnitude n.repr = n := by
  unfold Text.magnitude
  rw [Nat.toList_repr]
  by_cases hn : n = 0
  · subst hn
    rfl
  · obtain ⟨d, ds, hds, hd⟩ := exists_toDigits_eq (Nat.pos_of_ne_zero hn)
    have hsplit : Text.splitRadix (Nat.toDigits 10 n) = (10, Nat.toDigits 10 n) := by
      rw [hds, splitRadix_decimal hd]
    have hfilter : (Nat.toDigits 10 n).filter (· ≠ '_') = Nat.toDigits 10 n :=
      List.filter_eq_self.mpr fun c hc => decide_eq_true (ne_underscore_of_mem_toDigits hc)
    rw [hsplit]
    dsimp only
    rw [hfilter, foldl_digits_eq _ _ fun c hc => isAsciiDigit_of_mem_toDigits hc]
    exact Nat.ofDigitChars_toDigits (by omega) (by omega)

/-! ### What follows a token -/

/-- The place behind characters. -/
def Position.behind (pos : Position) (cs : List Char) : Position :=
  cs.foldl (fun pos c => pos.after (.char c)) pos

/-- A blank or a mark comes next, or nothing does. -/
def Stops (r : List Symbol) : Prop := ∀ s ∈ r.head?, ∃ c ∈ ' ' :: marks, s = .char c

/-- The next symbol can be read. -/
def Clear (r : List Symbol) : Prop := r.head?.bind symbolError? = none

/-- The marks are neither blanks nor do they start another token. -/
theorem mark_facts : marks.all (fun c => !isBlank c && !startsWord c && !Text.isAsciiDigit c &&
    decide (c ≠ '/')) = true := by
  decide

section Stops

variable {r : List Symbol} (hr : Stops r)
include hr

/-- What holds of blanks and marks holds of the next character. -/
theorem Stops.of_all {q : Char → Bool} (hq : (' ' :: marks).all q = true) :
    ∀ c, r.head? = some (.char c) → q c = true := by
  intro c hc
  obtain ⟨d, hd, heq⟩ := hr _ hc
  cases heq
  exact List.all_eq_true.mp hq c hd

theorem Stops.continuesWord {c : Char} (hc : r.head? = some (.char c)) : continuesWord c = false := by
  have hstop := hr.of_all (q := fun c => !Source.continuesWord c) (by decide) c hc
  simpa using hstop

theorem Stops.continues (radix : Radix) {c : Char} (hc : r.head? = some (.char c)) :
    radix.continues c = false := by
  have hstop := hr.of_all (q := fun c => !radix.continues c) (by cases radix <;> decide) c hc
  simpa using hstop

theorem Stops.radixMark_peek? (pos : Position) :
    radixMark (Cursor.peek? ⟨r, pos⟩) = (.octal, []) := by
  have hmark := hr.of_all (q := fun c => decide (radixMark (some c) = (.octal, []))) (by decide)
  unfold Cursor.peek?
  split
  · next c rest heq =>
    change r = _ at heq
    exact of_decide_eq_true (hmark c (by rw [heq]; rfl))
  · rfl

theorem Stops.clear : Clear r := by
  have hread := hr.of_all (q := fun c => decide (symbolError? (.char c) = none)) (by decide)
  unfold Clear
  cases hhead : r.head? with
  | none => rfl
  | some s =>
    obtain ⟨c, -, rfl⟩ := hr s hhead
    exact of_decide_eq_true (hread c hhead)

end Stops

theorem span_append {q : Char → Bool} {cs : List Char} {r : List Symbol} (hcs : cs.all q = true)
    (hr : ∀ c, r.head? = some (.char c) → q c = false) (pos : Position) :
    span q pos (cs.map .char ++ r) = (cs, ⟨r, pos.behind cs⟩) := by
  induction cs generalizing pos with
  | nil =>
    rw [List.map_nil, List.nil_append]
    unfold span
    split
    · next c rest => rw [if_neg (by rw [hr c rfl]; decide)]; rfl
    · rfl
  | cons c cs ih =>
    rw [List.all_cons, Bool.and_eq_true] at hcs
    rw [List.map_cons, List.cons_append, span, if_pos hcs.1, ih hcs.2]
    rfl

theorem readInteger_append {d : Char} {cs : List Char} {r : List Symbol} (h : IsInteger (d :: cs))
    (hr : Stops r) (pos : Position) :
    readInteger d ⟨cs.map .char ++ r, pos⟩ = (d :: cs, none, ⟨r, pos.behind cs⟩) := by
  unfold readInteger
  cases h with
  | @marked m radix digits hmark hcont herror =>
    have hpeek : Cursor.peek? ⟨(m :: digits).map .char ++ r, pos⟩ = some m := rfl
    have hspan : (Cursor.advance ⟨(m :: digits).map .char ++ r, pos⟩).span radix.continues =
        (digits, ⟨r, pos.behind (m :: digits)⟩) :=
      span_append hcont (fun c hc => hr.continues radix hc) (pos.after (.char m))
    rw [if_pos rfl, hpeek, hmark]
    simp only [List.isEmpty_cons, Bool.false_eq_true, if_false, hspan, List.singleton_append, herror]
  | octal hmark hcont herror =>
    have hpeek : radixMark (Cursor.peek? ⟨cs.map .char ++ r, pos⟩) = (.octal, []) := by
      cases cs with
      | nil => exact hr.radixMark_peek? pos
      | cons c cs => exact hmark
    have hspan : Cursor.span ⟨cs.map .char ++ r, pos⟩ Radix.octal.continues =
        (cs, ⟨r, pos.behind cs⟩) :=
      span_append hcont (fun c hc => hr.continues .octal hc) pos
    rw [if_pos rfl, hpeek]
    simp only [List.isEmpty_nil, if_true, hspan, List.nil_append, herror]
  | decimal hd hne hcont herror =>
    have hspan : Cursor.span ⟨cs.map .char ++ r, pos⟩ Radix.decimal.continues =
        (cs, ⟨r, pos.behind cs⟩) :=
      span_append hcont (fun c hc => hr.continues .decimal hc) pos
    rw [if_neg hne]
    simp only [hspan, herror]

/-! ### One token -/

section Token

variable {r : List Symbol} {fuel : Nat} {pos : Position}

theorem deliver_clear {tok : Token} {rest : TokenStream} (hr : Clear r) :
    deliver tok none ⟨r, pos⟩ rest = .cons tok rest := by
  have hread : Cursor.unreadable? ⟨r, pos⟩ = none := hr
  rw [deliver, hread]

theorem tokensFrom_blank :
    tokensFrom (fuel + 1) ⟨.char ' ' :: r, pos⟩ = tokensFrom (fuel + 1) ⟨r, pos.after (.char ' ')⟩ := by
  have hspan : (Cursor.span ⟨.char ' ' :: r, pos⟩ isBlank).2 =
      (Cursor.span ⟨r, pos.after (.char ' ')⟩ isBlank).2 := rfl
  unfold tokensFrom
  rw [hspan]

theorem span_isBlank {c : Char} (hblank : isBlank c = false) :
    (Cursor.span ⟨.char c :: r, pos⟩ isBlank).2 = ⟨.char c :: r, pos⟩ := by
  simp [Cursor.span, span, hblank]

theorem symbolError?_eq_none {c : Char} (hc : c.toNat ≠ 0) : symbolError? (.char c) = none :=
  if_neg hc

/-- A character that starts a word is neither blank nor unreadable. -/
theorem startsWord_facts {c : Char} (hc : startsWord c = true) :
    isBlank c = false ∧ symbolError? (.char c) = none := by
  have hno : ∀ d, startsWord d = false → c ≠ d := by
    rintro d hd rfl
    rw [hd] at hc
    cases hc
  constructor
  · have hspace := hno ' ' (by decide)
    have htab := hno '\t' (by decide)
    have hreturn := hno '\r' (by decide)
    simp [isBlank, hspace, htab, hreturn]
  · refine symbolError?_eq_none fun hzero => hno '\x00' (by decide) ?_
    exact Char.toNat_inj.mp hzero

/-- A digit is neither blank nor unreadable, and it starts no word. -/
theorem isAsciiDigit_facts {d : Char} (hd : Text.isAsciiDigit d = true) :
    isBlank d = false ∧ symbolError? (.char d) = none ∧ startsWord d = false := by
  have hrange : 0x30 ≤ d.toNat ∧ d.toNat ≤ 0x39 := by
    simpa [Text.isAsciiDigit, le_iff_toNat_le] using hd
  have hno : ∀ c : Char, c.toNat < 0x30 ∨ 0x39 < c.toNat → d ≠ c := by
    rintro c hc rfl
    omega
  refine ⟨?_, symbolError?_eq_none (by omega), ?_⟩
  · simp [isBlank, hno ' ' (by decide), hno '\t' (by decide), hno '\r' (by decide)]
  · have hletter : Text.isLetter d = false := by
      have hascii : d.toNat < 0x80 := by omega
      simp only [Text.isLetter, hascii, if_true, Text.isAsciiLetter, le_iff_toNat_le, Char.reduceToNat,
        Bool.or_eq_false_iff, Bool.and_eq_false_iff, decide_eq_false_iff_not]
      omega
    simp [startsWord, hletter, hno '_' (by decide), hno '.' (by decide)]

theorem tokensFrom_mark {c : Char} (hc : c ∈ marks) (hr : Clear r) :
    tokensFrom (fuel + 1) ⟨.char c :: r, pos⟩ =
      .cons ⟨.mark c, String.ofList [c], pos⟩ (tokensFrom fuel ⟨r, pos.after (.char c)⟩) := by
  have hmark := List.all_eq_true.mp mark_facts c hc
  simp only [Bool.and_eq_true, Bool.not_eq_true', decide_eq_true_eq] at hmark
  obtain ⟨⟨⟨hblank, hword⟩, hdigit⟩, hslash⟩ := hmark
  have hread : Cursor.unreadable? ⟨.char c :: r, pos⟩ = none := by
    have hstops : Stops (.char c :: r) := fun s hs => ⟨c, List.mem_cons_of_mem _ hc, (Option.some.inj hs).symm⟩
    exact hstops.clear
  have hpeek : Cursor.peek? ⟨.char c :: r, pos⟩ = some c := rfl
  have hadvance : Cursor.advance ⟨.char c :: r, pos⟩ = ⟨r, pos.after (.char c)⟩ := rfl
  rw [tokensFrom]
  simp only [span_isBlank hblank, hread, hpeek, hadvance, hword, hdigit, hslash, decide_false,
    Bool.false_and, Bool.false_eq_true, if_false]
  exact deliver_clear hr

theorem tokensFrom_word {cs : List Char} (hcs : IsWordText cs) (hr : Stops r) :
    tokensFrom (fuel + 1) ⟨cs.map .char ++ r, pos⟩ =
      .cons ⟨.word, String.ofList cs, pos⟩ (tokensFrom fuel ⟨r, pos.behind cs⟩) := by
  obtain @⟨c, cs, hstart, hcont⟩ := hcs
  have hall : (c :: cs).all continuesWord = true := by simp [continuesWord, hstart, hcont]
  have hspan : Cursor.span ⟨.char c :: (cs.map .char ++ r), pos⟩ continuesWord =
      (c :: cs, ⟨r, pos.behind (c :: cs)⟩) := span_append hall (fun _ hc => hr.continuesWord hc) pos
  obtain ⟨hblank, herror⟩ := startsWord_facts hstart
  have hread : Cursor.unreadable? ⟨.char c :: (cs.map .char ++ r), pos⟩ = none := herror
  have hpeek : Cursor.peek? ⟨.char c :: (cs.map .char ++ r), pos⟩ = some c := rfl
  rw [List.map_cons, List.cons_append]
  rw [tokensFrom]
  simp only [span_isBlank hblank, hread, hpeek, hspan, hstart, if_true]
  exact deliver_clear hr.clear

theorem tokensFrom_integer {cs : List Char} (hcs : IsInteger cs) (hr : Stops r) :
    tokensFrom (fuel + 1) ⟨cs.map .char ++ r, pos⟩ =
      .cons ⟨.int, String.ofList cs, pos⟩ (tokensFrom fuel ⟨r, pos.behind cs⟩) := by
  obtain ⟨d, ds, rfl, hd⟩ := hcs.exists_eq
  have hinteger := readInteger_append hcs hr (pos.after (.char d))
  obtain ⟨hblank, herror, hword⟩ := isAsciiDigit_facts hd
  have hread : Cursor.unreadable? ⟨.char d :: (ds.map .char ++ r), pos⟩ = none := herror
  have hpeek : Cursor.peek? ⟨.char d :: (ds.map .char ++ r), pos⟩ = some d := rfl
  have hadvance : Cursor.advance ⟨.char d :: (ds.map .char ++ r), pos⟩ =
      ⟨ds.map .char ++ r, pos.after (.char d)⟩ := rfl
  rw [List.map_cons, List.cons_append]
  rw [tokensFrom]
  simp only [span_isBlank hblank, hread, hpeek, hadvance, hword, hd, hinteger, Bool.false_eq_true,
    if_true, if_false]
  exact deliver_clear hr.clear

end Token

/-! ### Whole texts -/

/-- The characters of pieces. -/
def spell (ps : List Piece) : List Char := ps.flatMap Piece.chars

/-- A byte order mark starts no word. -/
theorem startsWord_byteOrderMark : startsWord '\uFEFF' = false := by decide +kernel

/-- A piece starts with a character that can be read and that is no byte order mark. -/
theorem Piece.Proper.exists_chars {a : Piece} (h : a.Proper) : ∃ c cs, a.chars = c :: cs ∧
    symbolError? (.char c) = none ∧ c ≠ '\uFEFF' := by
  have hword : ∀ {cs : List Char}, IsWordText cs → ∃ c cs', cs = c :: cs' ∧
      symbolError? (.char c) = none ∧ c ≠ '\uFEFF' := by
    rintro _ ⟨hstart, -⟩
    refine ⟨_, _, rfl, (startsWord_facts hstart).2, ?_⟩
    rintro rfl
    rw [startsWord_byteOrderMark] at hstart
    cases hstart
  have hinteger : ∀ {cs : List Char}, IsInteger cs → ∃ c cs', cs = c :: cs' ∧
      symbolError? (.char c) = none ∧ c ≠ '\uFEFF' := by
    intro cs hcs
    obtain ⟨d, ds, rfl, hd⟩ := hcs.exists_eq
    refine ⟨d, ds, rfl, (isAsciiDigit_facts hd).2.1, ?_⟩
    rintro rfl
    exact absurd hd (by decide)
  have hmark : marks.all (fun c => decide (symbolError? (.char c) = none ∧ c ≠ '\uFEFF')) = true := by
    decide
  cases a with
  | blank => exact ⟨' ', [], rfl, rfl, by decide⟩
  | mark c => exact ⟨c, [], rfl, of_decide_eq_true (List.all_eq_true.mp hmark c h)⟩
  | word w => exact hword h
  | name n => exact h.elim hword hinteger
  | number n => exact hinteger (isInteger_repr n)

/-- A piece that goes on as long as letters and digits follow is read up to where none does. -/
theorem exists_tokensFrom {a : Piece} {r : List Symbol} {fuel : Nat} {pos : Position}
    (hopen : a.isOpen = true) (ha : a.Proper) (hr : Stops r) :
    ∃ tok pos', a.Shows tok ∧ tokensFrom (fuel + 1) ⟨a.chars.map .char ++ r, pos⟩ =
      .cons tok (tokensFrom fuel ⟨r, pos'⟩) := by
  cases a with
  | blank => cases hopen
  | mark c => cases hopen
  | word w => exact ⟨_, _, ⟨rfl, String.ofList_toList⟩, tokensFrom_word ha hr⟩
  | name n =>
    rcases ha with hword | hinteger
    · exact ⟨_, _, ⟨.inl rfl, String.ofList_toList⟩, tokensFrom_word hword hr⟩
    · exact ⟨_, _, ⟨.inr rfl, String.ofList_toList⟩, tokensFrom_integer hinteger hr⟩
  | number n => exact ⟨_, _, ⟨rfl, String.ofList_toList⟩, tokensFrom_integer (isInteger_repr n) hr⟩

section Texts

variable {ps : List Piece}

theorem Legible.clear (h : Legible ps) : Clear ((spell ps).map .char) := by
  cases ps with
  | nil => rfl
  | cons a ps =>
    obtain ⟨c, cs, hchars, hread, -⟩ := h.1.exists_chars
    rw [spell, List.flatMap_cons, hchars]
    exact hread

theorem Legible.stops (h : Legible ps) (hhead : ∀ b ∈ ps.head?, b.isOpen = false) :
    Stops ((spell ps).map .char) := by
  cases ps with
  | nil =>
    intro s hs
    cases hs
  | cons a ps =>
    have hclosed := hhead a rfl
    intro s hs
    cases a with
    | blank => exact ⟨' ', List.mem_cons_self, (Option.some.inj hs).symm⟩
    | mark c => exact ⟨c, List.mem_cons_of_mem _ h.1, (Option.some.inj hs).symm⟩
    | word w => cases hclosed
    | name n => cases hclosed
    | number n => cases hclosed

/-- The tokens of a legible text.  Every piece takes one step. -/
theorem exists_spelled_tokensFrom (h : Legible ps) {fuel : Nat} (hfuel : ps.length < fuel)
    (pos : Position) : ∃ l pos', tokensFrom fuel ⟨(spell ps).map .char, pos⟩ =
      l ++ TokenStream.eof pos' ∧ Spelled ps l := by
  induction ps generalizing fuel pos with
  | nil =>
    obtain ⟨fuel, rfl⟩ := Nat.exists_eq_add_of_lt hfuel
    exact ⟨[], pos, rfl, .nil⟩
  | cons a ps ih =>
    obtain ⟨fuel, rfl⟩ : ∃ k, fuel = k + 1 := ⟨fuel - 1, by omega⟩
    rw [List.length_cons] at hfuel
    obtain ⟨ha, hnext, hps⟩ := h
    rw [spell, List.flatMap_cons, List.map_append]
    cases hopen : a.isOpen with
    | true =>
      obtain ⟨tok, pos', htok, hrun⟩ := exists_tokensFrom hopen ha (hps.stops (hnext hopen))
      obtain ⟨l, pos'', hl, hspelled⟩ := ih hps (show ps.length < fuel by omega) pos'
      exact ⟨tok :: l, pos'', hrun.trans (congrArg (TokenStream.cons tok) hl), .token htok hspelled⟩
    | false =>
      cases a with
      | blank =>
        obtain ⟨l, pos', hl, hspelled⟩ := ih hps (show ps.length < fuel + 1 by omega) (pos.after (.char ' '))
        exact ⟨l, pos', tokensFrom_blank.trans hl, .blank hspelled⟩
      | mark c =>
        obtain ⟨l, pos', hl, hspelled⟩ := ih hps (show ps.length < fuel by omega) (pos.after (.char c))
        exact ⟨_ :: l, pos', (tokensFrom_mark ha hps.clear).trans (congrArg (TokenStream.cons _) hl),
          .token rfl hspelled⟩
      | word w => cases hopen
      | name n => cases hopen
      | number n => cases hopen

theorem Legible.length_le (h : Legible ps) : ps.length ≤ (spell ps).length := by
  induction ps with
  | nil => exact Nat.le_refl 0
  | cons a ps ih =>
    obtain ⟨c, cs, hchars, -⟩ := h.1.exists_chars
    have hps := ih h.2.2
    rw [spell, List.flatMap_cons, hchars]
    simp only [List.cons_append, List.length_cons, List.length_append]
    change ps.length + 1 ≤ cs.length + (spell ps).length + 1
    omega

/-- **The tokens of a legible text are those of its pieces.** -/
theorem exists_spelled {s : String} (hs : s.toList = spell ps) (h : Legible ps) :
    ∃ l pos, TokenStream.ofSymbols (Symbol.ofString s) = l ++ TokenStream.eof pos ∧
      Spelled ps l := by
  have hstart : Cursor.start (Symbol.ofString s) = ⟨(spell ps).map .char, ⟨1, 1⟩⟩ := by
    rw [Symbol.ofString, hs]
    cases ps with
    | nil => rfl
    | cons a ps =>
      obtain ⟨c, cs, hchars, -, hmark⟩ := h.1.exists_chars
      rw [spell, List.flatMap_cons, hchars]
      simp only [List.cons_append, List.map_cons, Cursor.start]
      split
      · next heq =>
        cases heq
        exact absurd rfl hmark
      · rfl
  rw [TokenStream.ofSymbols, hstart]
  refine exists_spelled_tokensFrom h ?_ _
  have hle := h.length_le
  rw [Symbol.ofString, hs, List.length_map]
  omega

end Texts

end Midend.Source
