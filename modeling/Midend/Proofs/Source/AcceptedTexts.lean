import Midend.Proofs.Source.ParserPrograms
import Midend.Proofs.Source.Realization

/-!
# Accepted texts

A text is accepted just if its tokens follow the grammar and its names resolve.

## Main results

* `Program.parse_eq_ok_iff`, `parse_eq_ok_iff_isProgram`: the two stages.
* `parse_accepts_iff`: both together.
-/

namespace Midend

open Source Source.Grammar

/-! ### When a text is accepted -/

section Accepted

variable {name : String} {src : ByteArray} {p : Program}

theorem Program.parse_eq_ok_iff : Program.parse name src = .ok p ↔
    ∃ s, ProgramSyntax.parse (Text.Symbol.ofBytes src) = .ok s ∧ s.resolve name = .ok p := by
  unfold Program.parse
  cases ProgramSyntax.parse (Text.Symbol.ofBytes src) with
  | error e =>
    refine ⟨nofun, ?_⟩
    rintro ⟨s, hs, -⟩
    cases hs
  | ok s =>
    have hbind : (do (← (Except.ok s : Except SourceError ProgramSyntax)).resolve name) =
        s.resolve name := rfl
    rw [hbind]
    cases hresolve : s.resolve name with
    | error e =>
      refine ⟨nofun, ?_⟩
      rintro ⟨s', hs, h⟩
      cases hs
      rw [hresolve] at h
      cases h
    | ok q =>
      constructor
      · intro h
        cases h
        exact ⟨s, rfl, hresolve⟩
      · rintro ⟨s', hs, h⟩
        cases hs
        rw [hresolve] at h
        cases h
        rfl

theorem parse_eq_ok_iff_isProgram {s : ProgramSyntax} :
    ProgramSyntax.parse (Text.Symbol.ofBytes src) = .ok s ↔ ∃ l pos,
      TokenStream.ofSymbols (Text.Symbol.ofBytes src) = l ++ TokenStream.eof pos ∧
        IsProgram l s ∧ (s.globals.map (·.name)).Nodup :=
  ProgramSyntax.ofTokens_eq_ok_iff (proper_ofSymbols _)

/-- An accepted text follows the grammar, its names resolve, and its program is what it says. -/
theorem exists_syntax_of_parse (h : Program.parse name src = .ok p) : ∃ s l pos,
    ProgramSyntax.parse (Text.Symbol.ofBytes src) = .ok s ∧
      TokenStream.ofSymbols (Text.Symbol.ofBytes src) = l ++ TokenStream.eof pos ∧
        IsProgram l s ∧ s.Resolves ∧ Represents p s := by
  obtain ⟨s, hs, hresolve⟩ := Program.parse_eq_ok_iff.mp h
  obtain ⟨l, pos, htokens, hl, hglobals⟩ := parse_eq_ok_iff_isProgram.mp hs
  obtain ⟨hfuncs, heach⟩ := (exists_resolve_iff name s).mp ⟨p, hresolve⟩
  exact ⟨s, l, pos, hs, htokens, hl, ⟨hglobals, hfuncs, heach⟩, represents_of_resolve hresolve⟩

/-- A text that follows the grammar and whose names resolve is accepted. -/
theorem exists_parse_of_syntax {s : ProgramSyntax} {l : List Token} {pos : Position}
    (htokens : TokenStream.ofSymbols (Text.Symbol.ofBytes src) = l ++ TokenStream.eof pos)
    (hl : IsProgram l s) (hres : s.Resolves) (name : String) :
    ∃ p, Program.parse name src = .ok p ∧ Represents p s := by
  obtain ⟨p, hp⟩ := (exists_resolve_iff name s).mpr ⟨hres.funcs, hres.each⟩
  have hs := parse_eq_ok_iff_isProgram.mpr ⟨l, pos, htokens, hl, hres.globals⟩
  exact ⟨p, Program.parse_eq_ok_iff.mpr ⟨s, hs, hp⟩, represents_of_resolve hp⟩

theorem append_eof_inj {l l' : List Token} {pos pos' : Position}
    (h : l ++ TokenStream.eof pos = l' ++ TokenStream.eof pos') : l = l' := by
  induction l generalizing l' with
  | nil =>
    cases l' with
    | nil => rfl
    | cons t l' => cases h
  | cons t l ih =>
    cases l' with
    | nil => cases h
    | cons t' l' =>
      obtain ⟨rfl, hrest⟩ := TokenStream.cons.inj h
      rw [ih hrest]

/-- **A text is accepted just if its tokens are a program and its names resolve.**  A text that cannot be
read to its end is not accepted. -/
theorem parse_accepts_iff (name : String) (src : ByteArray) :
    (∀ (l : List Token) pos,
      TokenStream.ofSymbols (Text.Symbol.ofBytes src) = l ++ TokenStream.eof pos →
      ((∃ p, Program.parse name src = .ok p) ↔ ∃ s, IsProgram l s ∧ s.Resolves)) ∧
    ∀ p, Program.parse name src = .ok p → ∃ (l : List Token) (pos : Position),
      TokenStream.ofSymbols (Text.Symbol.ofBytes src) = l ++ TokenStream.eof pos := by
  have haccept : (∃ p, Program.parse name src = .ok p) ↔ ∃ (s : ProgramSyntax) (l : List Token) (pos : Position),
      TokenStream.ofSymbols (Text.Symbol.ofBytes src) = l ++ TokenStream.eof pos ∧
        IsProgram l s ∧ s.Resolves := by
    constructor
    · rintro ⟨p, hp⟩
      obtain ⟨s, l, pos, -, htokens, hl, hresolves, -⟩ := exists_syntax_of_parse hp
      exact ⟨s, l, pos, htokens, hl, hresolves⟩
    · rintro ⟨s, l, pos, htokens, hl, hresolves⟩
      obtain ⟨p, hp, -⟩ := exists_parse_of_syntax htokens hl hresolves name
      exact ⟨p, hp⟩
  constructor
  · intro l pos htokens
    rw [haccept]
    constructor
    · rintro ⟨s, l', pos', htokens', hl, hresolves⟩
      rw [htokens] at htokens'
      rw [append_eof_inj htokens']
      exact ⟨s, hl, hresolves⟩
    · rintro ⟨s, hl, hresolves⟩
      exact ⟨s, l, pos, htokens, hl, hresolves⟩
  · intro p hp
    obtain ⟨s, l, pos, htokens, -⟩ := haccept.mp ⟨p, hp⟩
    exact ⟨l, pos, htokens⟩

/-- A text in which `%x` uses the result of a later block. -/
def forward : ByteArray :=
  ("global @g : i8\nfunc @f(%a: i1, %7: i64,) \x7b\nL: condbr %a, M, N\nM:\n    %x = add i64 %7, %y\n" ++
    "    br N\n\nN: %y = load i64, @g\n    ret void\n\x7d\n").toUTF8

/-- A text in which `%x` uses its own result. -/
def circular : ByteArray := "func @f() \x7b\nL:\n    %x = add i8 %x, 1\n\x7d\n".toUTF8

theorem parse_accepts_iff_forward :
    (∃ (l : List Token) (pos : Position),
      TokenStream.ofSymbols (Text.Symbol.ofBytes forward) = l ++ TokenStream.eof pos ∧
        (∃ p, Program.parse "m" forward = .ok p) ∧ ∃ s, IsProgram l s ∧ s.Resolves) ∧
    ∃ (l : List Token) (pos : Position),
      TokenStream.ofSymbols (Text.Symbol.ofBytes circular) = l ++ TokenStream.eof pos ∧
        ¬∃ s, IsProgram l s ∧ s.Resolves := by
  constructor
  · obtain ⟨p, hp, -⟩ : ∃ p, Program.parse "m" forward = .ok p ∧ true = true :=
      Program.exists_of_parse (f := fun _ => true) (by decide +kernel)
    obtain ⟨l, pos, hl⟩ := (parse_accepts_iff "m" forward).2 p hp
    exact ⟨l, pos, hl, ⟨p, hp⟩, ((parse_accepts_iff "m" forward).1 l pos hl).mp ⟨p, hp⟩⟩
  · have hreads : (ProgramSyntax.parse (Text.Symbol.ofBytes circular)).isOk = true := by
      decide +kernel
    have hrejects : (Program.parse "m" circular).isOk = false := by decide +kernel
    cases hs : ProgramSyntax.parse (Text.Symbol.ofBytes circular) with
    | error e =>
      rw [hs] at hreads
      cases hreads
    | ok s =>
      obtain ⟨l, pos, hl, -⟩ := parse_eq_ok_iff_isProgram.mp hs
      refine ⟨l, pos, hl, fun h => ?_⟩
      obtain ⟨p, hp⟩ := ((parse_accepts_iff "m" circular).1 l pos hl).mpr h
      rw [hp] at hrejects
      cases hrejects

end Accepted

end Midend
