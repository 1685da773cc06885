import Midend.Proofs.Action.Runs
import Midend.Proofs.Source.Scanner
import Midend.Source.Parser

/-!
# The parser reads instructions

An action of the parser is put together from others, and so is what it takes: first the tokens of the
one, then those of the other.  An action that takes exactly what a rule of the grammar says, wherever
it stands, is told apart from a list that is only known to end where its closing mark follows.

## Main definitions

* `Parser.Takes m D`: the action `m` takes the tokens that `D` relates to its result.
* `Parser.TakesAt`: the same, with a given current token.
* `Parser.Closes m D c`: the same, if the mark `c` follows.

## Main results

* `Parser.Takes.bind`, `Parser.Closes.bind`: one action after another.
* `Parser.takes_operand`, `Parser.closes_items`, `Parser.takes_instrBody`: the constructs.
* `Parser.instr_eq_ok`: what follows an operation.
-/

namespace Midend.Source

/-! ### Streams that start with given tokens -/

/-- Tokens, and what follows them. -/
instance : HAppend (List Token) TokenStream TokenStream where
  hAppend l s := l.foldr .cons s

/-- The stream can be read on. -/
def TokenStream.Readable (s : TokenStream) : Prop := ∀ pos why, s ≠ .broken pos why

/-- The line ends before the stream, or the text does. -/
def TokenStream.LineEnds (s : TokenStream) : Prop :=
  s.current.kind = .mark '\n' ∨ s.current.kind = .eof

namespace TokenStream

variable {l l' : List Token} {t : Token} {s : TokenStream}

@[simp] theorem nil_append : ([] : List Token) ++ s = s := rfl

@[simp] theorem cons_append : t :: l ++ s = cons t (l ++ s) := rfl

@[simp] theorem append_append : l ++ l' ++ s = l ++ (l' ++ s) := by
  induction l with
  | nil => rfl
  | cons t l ih => exact congrArg (cons t) ih

@[simp] theorem length_append : (l ++ s).length = l.length + s.length := by
  induction l with
  | nil => simp
  | cons t l ih =>
    rw [cons_append, length, ih, List.length_cons]
    omega

@[simp] theorem current_cons : (cons t s).current = t := rfl

theorem readable_cons : (cons t s).Readable := nofun

theorem readable_eof (pos : Position) : (eof pos).Readable := nofun

theorem Readable.append (h : s.Readable) : (l ++ s).Readable := by
  cases l with
  | nil => exact h
  | cons t l => exact readable_cons

theorem Proper.of_append (h : (l ++ s).Proper) : s.Proper := by
  induction l with
  | nil => exact h
  | cons t l ih => exact ih h.2

end TokenStream

namespace Parser

variable {α β : Type} {s t : TokenStream}

/-! ### What an action takes -/

/-- The action takes the tokens that `D` relates to its result: those and no others, and the stream
behind them can be read on. -/
def Takes (m : Parser α) (D : List Token → α → Prop) : Prop :=
  ∀ s, s.Proper → s.Readable → ∀ a t,
    m s = .ok (a, t) ↔ t.Readable ∧ ∃ l, D l a ∧ s = l ++ t

/-- The tokens of one action and then those of another, which may depend on the first result. -/
def Then (D : List Token → α → Prop) (E : α → List Token → β → Prop) (l : List Token) (b : β) :
    Prop :=
  ∃ l₁ a l₂, D l₁ a ∧ E a l₂ b ∧ l = l₁ ++ l₂

section Takes

variable {m : Parser α} {D D' : List Token → α → Prop} {E : α → List Token → β → Prop}

theorem Takes.congr (h : Takes m D) (hD : ∀ l a, D l a ↔ D' l a) : Takes m D' := by
  intro s hs hr a t
  rw [h s hs hr a t]
  simp only [hD]

theorem Takes.pure (a : α) : Takes (pure a) fun l b => l = [] ∧ b = a := by
  intro s hs hr b t
  rw [pure_eq_ok]
  constructor
  · rintro ⟨rfl, rfl⟩
    exact ⟨hr, [], ⟨rfl, rfl⟩, rfl⟩
  · rintro ⟨-, l, ⟨rfl, rfl⟩, rfl⟩
    exact ⟨rfl, rfl⟩

theorem Takes.bind {f : α → Parser β} (hm : Takes m D) (hf : ∀ a, Takes (f a) (E a)) :
    Takes (m >>= f) (Then D E) := by
  intro s hs hr b u
  rw [bind_eq_ok]
  constructor
  · rintro ⟨a, t, hma, hfa⟩
    obtain ⟨ht, l₁, hD, rfl⟩ := (hm s hs hr a t).mp hma
    obtain ⟨hu, l₂, hE, rfl⟩ := (hf a t hs.of_append ht b u).mp hfa
    exact ⟨hu, l₁ ++ l₂, ⟨l₁, a, l₂, hD, hE, rfl⟩, by simp⟩
  · rintro ⟨hu, -, ⟨l₁, a, l₂, hD, hE, rfl⟩, rfl⟩
    rw [TokenStream.append_append] at hs hr ⊢
    have ht : (l₂ ++ u).Readable := hu.append
    exact ⟨a, l₂ ++ u, (hm _ hs hr _ _).mpr ⟨ht, l₁, hD, rfl⟩,
      (hf a _ hs.of_append ht _ _).mpr ⟨hu, l₂, hE, rfl⟩⟩

/-- What an action takes is taken wherever it stands. -/
theorem Takes.run (h : Takes m D) {l : List Token} {a : α} (hl : D l a) (hs : (l ++ t).Proper)
    (ht : t.Readable) : m (l ++ t) = .ok (a, t) :=
  (h _ hs ht.append a t).mpr ⟨ht, l, hl, rfl⟩

end Takes

/-! ### Single tokens -/

@[simp] theorem fail_eq_ok {pos : Position} {reason : Reason} {r : α × TokenStream} :
    (fail pos reason : Parser α) s = .ok r ↔ False :=
  throw_eq_ok

/-- A check, and what follows it. -/
theorem check_eq_ok {c : Prop} [Decidable c] {pos : Position} {reason : Reason}
    {k : Unit → Parser α} {r : α × TokenStream} :
    (if c then (do let u ← fail pos reason; k u) else k ()) s = .ok r ↔ ¬c ∧ k () s = .ok r := by
  by_cases hc : c
  · rw [if_pos hc, bind_eq_ok]
    simp [hc]
  · rw [if_neg hc]
    exact (and_iff_right hc).symm

@[simp] theorem enter_eq_ok {next : TokenStream} {u : Unit} :
    enter next s = .ok (u, t) ↔ next.Readable ∧ next = t := by
  cases next with
  | broken pos why =>
    refine iff_of_false (fun h => fail_eq_ok.mp h) ?_
    exact fun h => h.1 pos why rfl
  | eof pos => exact set_eq_ok.trans (and_iff_right nofun).symm
  | cons tok rest => exact set_eq_ok.trans (and_iff_right nofun).symm

theorem current_run (s : TokenStream) : current s = .ok (s.current, s) := rfl

theorem tokensLeft_run (s : TokenStream) : tokensLeft s = .ok (s.length, s) := rfl

theorem atMark_run (c : Char) (s : TokenStream) :
    atMark c s = .ok (decide (s.current.kind = .mark c), s) := rfl

theorem advance_cons {tok : Token} (hs : s.Readable) : advance (.cons tok s) = .ok ((), s) :=
  enter_eq_ok.mpr ⟨hs, rfl⟩

theorem advance_cons_eq_ok {tok : Token} {u : Unit} :
    advance (.cons tok s) = .ok (u, t) ↔ s.Readable ∧ s = t := enter_eq_ok

theorem advance_pure_eq_ok {a b : α} :
    (do advance; pure b : Parser α) s = .ok (a, t) ↔ a = b ∧ ∃ u, advance s = .ok (u, t) := by
  rw [bind_eq_ok]
  constructor
  · rintro ⟨u, t', hu, hpure⟩
    obtain ⟨rfl, rfl⟩ := pure_eq_ok.mp hpure
    exact ⟨rfl, u, hu⟩
  · rintro ⟨rfl, u, hu⟩
    exact ⟨u, t, hu, rfl⟩

/-- Takes the current token, if it is of the right kind. -/
theorem takes_token {m : Parser α} (good : Token → Prop) (f : Token → α)
    (heof : ∀ pos, ¬good ⟨.eof, "", pos⟩)
    (hm : ∀ s a t, m s = .ok (a, t) ↔
      good s.current ∧ a = f s.current ∧ ∃ u, advance s = .ok (u, t)) :
    Takes m fun l a => ∃ tok, good tok ∧ a = f tok ∧ l = [tok] := by
  intro s hs hr a t
  rw [hm]
  cases s with
  | broken pos why => exact absurd rfl (hr pos why)
  | eof pos =>
    refine iff_of_false (fun h => heof pos h.1) ?_
    rintro ⟨-, -, ⟨tok, -, -, rfl⟩, heq⟩
    cases heq
  | cons tok rest =>
    constructor
    · rintro ⟨hgood, rfl, u, hu⟩
      obtain ⟨hrest, rfl⟩ := advance_cons_eq_ok.mp hu
      exact ⟨hrest, [tok], ⟨tok, hgood, rfl, rfl⟩, rfl⟩
    · rintro ⟨ht, -, ⟨tok', hgood, rfl, rfl⟩, heq⟩
      cases heq
      exact ⟨hgood, rfl, (), advance_cons ht⟩

/-- With `tok` as the current token, the action takes it and then what `D` demands. -/
def TakesAt (tok : Token) (m : Parser α) (D : List Token → α → Prop) : Prop :=
  ∀ s, (TokenStream.cons tok s).Proper → ∀ a t,
    m (.cons tok s) = .ok (a, t) ↔ t.Readable ∧ ∃ l, D (tok :: l) a ∧ s = l ++ t

/-- An action that looks at the current token first. -/
theorem takes_current {f : Token → Parser α} {D : List Token → α → Prop} (hD : ∀ a, ¬D [] a)
    (heof : ∀ pos r, f ⟨.eof, "", pos⟩ (.eof pos) ≠ .ok r) (hf : ∀ tok, TakesAt tok (f tok) D) :
    Takes (current >>= f) D := by
  intro s hs hr a t
  rw [bind_of_ok (current_run s)]
  cases s with
  | broken pos why => exact absurd rfl (hr pos why)
  | eof pos =>
    refine iff_of_false (heof pos _) ?_
    rintro ⟨-, l, hl, heq⟩
    cases l with
    | nil => exact hD a hl
    | cons tok l => cases heq
  | cons tok rest =>
    rw [TokenStream.current_cons, hf tok rest hs a t]
    refine and_congr_right fun _ => ⟨?_, ?_⟩
    · rintro ⟨l, hl, rfl⟩
      exact ⟨tok :: l, hl, rfl⟩
    · rintro ⟨l, hl, heq⟩
      cases l with
      | nil => exact absurd hl (hD a)
      | cons tok' l =>
        cases heq
        exact ⟨l, hl, rfl⟩

section TakesAt

variable {tok : Token} {g : Parser α} {D E : List Token → α → Prop}

/-- An action behind the current token. -/
theorem TakesAt.advance (hg : Takes g E) (hD : ∀ l a, D (tok :: l) a ↔ E l a) :
    TakesAt tok (do advance; g) D := by
  intro s hs a t
  simp only [hD]
  rw [bind_eq_ok]
  constructor
  · rintro ⟨u, s', hu, hrun⟩
    obtain ⟨hr, rfl⟩ := advance_cons_eq_ok.mp hu
    exact (hg s hs.2 hr a t).mp hrun
  · rintro ⟨ht, l, hl, rfl⟩
    exact ⟨(), l ++ t, advance_cons ht.append, hg.run hl hs.2 ht⟩

/-- An action that takes the current token itself. -/
theorem Takes.takesAt (hg : Takes g E) (hE : ∀ a, ¬E [] a)
    (hD : ∀ l a, D (tok :: l) a ↔ E (tok :: l) a) : TakesAt tok g D := by
  intro s hs a t
  rw [hg _ hs TokenStream.readable_cons a t]
  simp only [hD]
  refine and_congr_right fun _ => ⟨?_, ?_⟩
  · rintro ⟨l, hl, heq⟩
    cases l with
    | nil => exact absurd hl (hE a)
    | cons tok' l =>
      cases heq
      exact ⟨l, hl, rfl⟩
  · rintro ⟨l, hl, rfl⟩
    exact ⟨tok :: l, hl, rfl⟩

end TakesAt

theorem isMark_of_mark {c : Char} {r : Unit × TokenStream} (h : mark c s = .ok r) :
    s.current.IsMark c := by
  unfold mark at h
  rw [bind_of_ok (current_run s)] at h
  by_cases hmark : s.current.kind = .mark c
  · exact hmark
  · rw [if_neg hmark] at h
    exact (fail_eq_ok.mp h).elim

theorem takes_mark (c : Char) : Takes (mark c) fun l _ => ∃ tok, tok.IsMark c ∧ l = [tok] := by
  refine (takes_token (·.IsMark c) (fun _ => ()) nofun fun s a t => ?_).congr (by simp)
  unfold mark
  rw [bind_of_ok (current_run s)]
  by_cases hmark : s.current.kind = .mark c
  · rw [if_pos hmark]
    exact ⟨fun h => ⟨hmark, rfl, a, h⟩, fun ⟨_, _, _, h⟩ => h⟩
  · rw [if_neg hmark]
    exact iff_of_false (by simp) fun h => hmark h.1

theorem takes_word :
    Takes word fun l w => ∃ tok, tok.kind = .word ∧ w = tok.text ∧ l = [tok] := by
  refine takes_token (·.kind = .word) Token.text nofun fun s a t => ?_
  unfold word
  rw [bind_of_ok (current_run s)]
  by_cases hword : s.current.kind = .word
  · rw [if_pos hword]
    exact advance_pure_eq_ok.trans (and_iff_right hword).symm
  · rw [if_neg hword]
    exact iff_of_false (by simp) fun h => hword h.1

theorem takes_name : Takes name fun l w => ∃ tok, tok.IsName ∧ w = tok.text ∧ l = [tok] := by
  refine takes_token Token.IsName Token.text (by simp [Token.IsName]) fun s a t => ?_
  unfold name
  rw [bind_of_ok (current_run s)]
  by_cases hname : s.current.IsName
  · have hname' : (decide (s.current.kind = .word) || decide (s.current.kind = .int)) = true := by
      simpa [Token.IsName] using hname
    rw [if_pos hname']
    exact advance_pure_eq_ok.trans (and_iff_right hname).symm
  · have hname' : ¬(decide (s.current.kind = .word) || decide (s.current.kind = .int)) = true := by
      simpa [Token.IsName] using hname
    rw [if_neg hname']
    exact iff_of_false (by simp) fun h => hname h.1

theorem takes_ty : Takes ty fun l t => ∃ tok, tok.IsType t ∧ l = [tok] := by
  intro s hs hr a t
  unfold ty
  rw [bind_of_ok (current_run s), bind_eq_ok]
  constructor
  · rintro ⟨w, t', hword, hty⟩
    obtain ⟨ht, -, ⟨tok, hkind, rfl, rfl⟩, rfl⟩ := (takes_word s hs hr w t').mp hword
    cases hparse : Ty.parse tok.text with
    | error why =>
      rw [hparse] at hty
      exact (fail_eq_ok.mp hty).elim
    | ok ty =>
      rw [hparse] at hty
      obtain ⟨rfl, rfl⟩ := pure_eq_ok.mp hty
      exact ⟨ht, [tok], ⟨tok, ⟨hkind, hparse⟩, rfl⟩, rfl⟩
  · rintro ⟨ht, -, ⟨tok, ⟨hkind, hparse⟩, rfl⟩, rfl⟩
    refine ⟨tok.text, t, (takes_word _ hs hr _ _).mpr ⟨ht, [tok], ⟨tok, hkind, rfl, rfl⟩, rfl⟩, ?_⟩
    rw [hparse]
    rfl

/-! ### Instructions -/

open Grammar

/-- An integer with its sign, of which `pos` is the place. -/
theorem takes_integer (pos : Position) (negative : Bool) :
    Takes (integer pos negative) fun l a => ∃ tok v, tok.kind = .int ∧
      v.toInt = (if negative then -(Text.magnitude tok.text : Int) else Text.magnitude tok.text) ∧
      a = ⟨pos, .literal v⟩ ∧ l = [tok] := by
  intro s hs hr a t
  unfold integer
  rw [bind_of_ok (current_run s)]
  cases s with
  | broken pos why => exact absurd rfl (hr pos why)
  | eof pos =>
    refine iff_of_false (fun h => fail_eq_ok.mp h) ?_
    rintro ⟨-, -, ⟨tok, v, -, -, -, rfl⟩, heq⟩
    cases heq
  | cons tok rest =>
    by_cases hint : tok.kind = .int
    · have hproper : IsInteger tok.text.toList := by
        have := hs.1
        rwa [Token.Proper, hint] at this
      rw [TokenStream.current_cons, if_neg fun h => h hint]
      dsimp only
      cases hread : Text.readSigned (if negative then "-" ++ tok.text else tok.text) with
      | error why =>
        refine iff_of_false (fun h => fail_eq_ok.mp h) ?_
        rintro ⟨-, -, ⟨tok', v, -, hv, -, rfl⟩, heq⟩
        cases heq
        rw [(readSigned_eq_ok_iff hproper).mpr hv] at hread
        cases hread
      | ok v =>
        have hv := (readSigned_eq_ok_iff hproper).mp hread
        change (do advance; pure _ : Parser Operand) _ = _ ↔ _
        rw [advance_pure_eq_ok]
        constructor
        · rintro ⟨rfl, u, hu⟩
          obtain ⟨hrest, rfl⟩ := advance_cons_eq_ok.mp hu
          exact ⟨hrest, [tok], ⟨tok, v, hint, hv, rfl, rfl⟩, rfl⟩
        · rintro ⟨ht, -, ⟨tok', v', -, hv', rfl, rfl⟩, heq⟩
          cases heq
          rw [Int64.toInt_inj.mp (hv'.trans hv.symm)]
          exact ⟨rfl, (), advance_cons ht⟩
    · rw [TokenStream.current_cons, if_pos hint]
      refine iff_of_false (fun h => fail_eq_ok.mp h) ?_
      rintro ⟨-, -, ⟨tok', v, hint', -, -, rfl⟩, heq⟩
      cases heq
      exact hint hint'

theorem takes_operand : Takes operand IsOperand := by
  refine takes_current nofun nofun fun tok => ?_
  split
  · next hmark =>
    refine .advance (takes_name.bind fun n => .pure _) fun l a => ⟨?_, ?_⟩
    · rintro (⟨-, hn⟩ | ⟨hm, -⟩ | ⟨hint, -⟩ | ⟨hm, -, -⟩)
      · exact ⟨_, _, [], ⟨_, hn, rfl, rfl⟩, ⟨rfl, rfl⟩, rfl⟩
      all_goals simp_all
    · rintro ⟨-, -, -, ⟨n, hn, rfl, rfl⟩, ⟨rfl, rfl⟩, rfl⟩
      exact .value hmark hn
  · next hmark =>
    refine .advance (takes_name.bind fun n => .pure _) fun l a => ⟨?_, ?_⟩
    · rintro (⟨hm, -⟩ | ⟨-, hn⟩ | ⟨hint, -⟩ | ⟨hm, -, -⟩)
      · simp_all
      · exact ⟨_, _, [], ⟨_, hn, rfl, rfl⟩, ⟨rfl, rfl⟩, rfl⟩
      all_goals simp_all
    · rintro ⟨-, -, -, ⟨n, hn, rfl, rfl⟩, ⟨rfl, rfl⟩, rfl⟩
      exact .global hmark hn
  · next hmark =>
    refine .advance (takes_integer _ _) fun l a => ⟨?_, ?_⟩
    · rintro (⟨hm, -⟩ | ⟨hm, -⟩ | ⟨hint, -⟩ | ⟨-, hint, hv⟩)
      · simp_all
      · simp_all
      · simp_all
      · exact ⟨_, _, hint, hv, rfl, rfl⟩
    · rintro ⟨n, v, hint, hv, rfl, rfl⟩
      exact .negative hmark hint hv
  · next hvalue hglobal hminus =>
    refine (takes_integer tok.pos false).takesAt nofun fun l a => ⟨?_, ?_⟩
    · rintro (⟨hm, -⟩ | ⟨hm, -⟩ | ⟨hint, hv⟩ | ⟨hm, -, -⟩)
      · exact absurd hm hvalue
      · exact absurd hm hglobal
      · exact ⟨_, _, hint, hv, rfl, rfl⟩
      · exact absurd hm hminus
    · rintro ⟨n, v, hint, hv, rfl, heq⟩
      cases heq
      exact .literal hint hv

theorem takes_operandPair : Takes operandPair IsPair := by
  refine (takes_operand.bind fun x => (takes_mark ',').bind fun _ =>
    takes_operand.bind fun y => .pure [x, y]).congr fun l args => ⟨?_, ?_⟩
  · rintro ⟨l₁, x, -, hx, ⟨-, -, -, ⟨comma, hcomma, rfl⟩, ⟨l₂, y, -, hy, ⟨rfl, rfl⟩, rfl⟩, rfl⟩, rfl⟩
    simpa using IsPair.mk hx hcomma hy
  · rintro ⟨hx, hcomma, hy⟩
    exact ⟨_, _, _, hx, ⟨_, (), _, ⟨_, hcomma, rfl⟩, ⟨_, _, [], hy, ⟨rfl, rfl⟩, rfl⟩, rfl⟩,
      by simp⟩

theorem takes_target :
    Takes target fun l t => ∃ tok, tok.IsName ∧ t = ⟨tok.pos, tok.text⟩ ∧ l = [tok] := by
  refine takes_current nofun nofun fun tok => ?_
  refine (takes_name.bind fun n => .pure (Target.mk tok.pos n)).takesAt ?_ fun l t => ⟨?_, ?_⟩
  · rintro a ⟨l₁, w, l₂, ⟨n, -, -, rfl⟩, -, heq⟩
    cases heq
  · rintro ⟨n, hn, rfl, heq⟩
    cases heq
    exact ⟨_, _, [], ⟨_, hn, rfl, rfl⟩, ⟨rfl, rfl⟩, rfl⟩
  · rintro ⟨-, -, -, ⟨n, hn, rfl, rfl⟩, ⟨rfl, rfl⟩, heq⟩
    cases heq
    exact ⟨_, hn, rfl, rfl⟩

/-! ### Up to a closing mark -/

/-- If the mark `c` follows, the action takes the tokens that `D` relates to its result. -/
structure Closes (m : Parser α) (D : List Token → α → Prop) (c : Char) : Prop where
  /-- No others are taken. -/
  sound : ∀ s, s.Proper → s.Readable → ∀ a t, m s = .ok (a, t) → t.current.IsMark c →
    t.Readable ∧ ∃ l, D l a ∧ s = l ++ t
  /-- They are taken. -/
  complete : ∀ l a tok t, D l a → tok.IsMark c → (l ++ TokenStream.cons tok t).Proper →
    m (l ++ TokenStream.cons tok t) = .ok (a, .cons tok t)

theorem Closes.bind {m : Parser α} {D : List Token → α → Prop} {c : Char} {k : α → Parser β}
    {E : α → List Token → β → Prop} (hm : Closes m D c) (hk : ∀ a, Takes (k a) (E a)) :
    Takes (do let a ← m; mark c; k a) fun l b => ∃ l₁ a tok l₂, D l₁ a ∧ tok.IsMark c ∧
      E a l₂ b ∧ l = l₁ ++ tok :: l₂ := by
  have hrest := fun a => (takes_mark c).bind fun _ => hk a
  intro s hs hr b u
  rw [bind_eq_ok]
  constructor
  · rintro ⟨a, t, hma, hka⟩
    obtain ⟨u', t', hmark, -⟩ := bind_eq_ok.mp hka
    obtain ⟨ht, l₁, hD, rfl⟩ := hm.sound s hs hr a t hma (isMark_of_mark hmark)
    obtain ⟨hu, -, ⟨-, -, l₂, ⟨tok, htok, rfl⟩, hE, rfl⟩, rfl⟩ :=
      (hrest a t hs.of_append ht b u).mp hka
    exact ⟨hu, _, ⟨l₁, a, tok, l₂, hD, htok, hE, rfl⟩, by simp⟩
  · rintro ⟨hu, -, ⟨l₁, a, tok, l₂, hD, htok, hE, rfl⟩, rfl⟩
    rw [TokenStream.append_append] at hs ⊢
    refine ⟨a, _, hm.complete l₁ a tok (l₂ ++ u) hD htok hs, ?_⟩
    exact (hrest a).run ⟨[tok], (), l₂, ⟨tok, htok, rfl⟩, hE, rfl⟩ hs.of_append hu

/-- Takes items with commas between them up to a closing parenthesis. -/
def itemsFrom (item : Parser α) : Nat → Parser (List α)
  | 0 => pure []
  | fuel + 1 => do
    if ← atMark ')' then pure []
    else
      let x ← item
      if ← atMark ',' then
        advance
        return x :: (← itemsFrom item fuel)
      else pure [x]

theorem argsFrom_eq (fuel : Nat) : argsFrom fuel = itemsFrom operand fuel := by
  induction fuel with
  | zero => rfl
  | succ fuel ih =>
    unfold argsFrom itemsFrom
    rw [ih]

/-- Takes a parameter. -/
def param : Parser ParamSyntax := do
  let t ← current
  mark '%'
  let name ← name
  mark ':'
  let ty ← ty
  pure ⟨t.pos, name, ty⟩

theorem paramsFrom_eq (fuel : Nat) : paramsFrom fuel = itemsFrom param fuel := by
  induction fuel with
  | zero => rfl
  | succ fuel ih =>
    rw [paramsFrom, itemsFrom, ih]
    generalize itemsFrom param fuel = rest
    simp only [param, bind_assoc, pure_bind]

theorem takes_param : Takes param IsParam := by
  refine takes_current nofun nofun fun tok => ?_
  refine ((takes_mark '%').bind fun _ => takes_name.bind fun n => (takes_mark ':').bind fun _ =>
    takes_ty.bind fun ty => .pure (ParamSyntax.mk tok.pos n ty)).takesAt ?_ fun l a => ⟨?_, ?_⟩
  · rintro a ⟨l₁, w, l₂, ⟨n, -, rfl⟩, -, heq⟩
    cases heq
  · rintro ⟨hm, hn, hcolon, ht⟩
    exact ⟨_, (), _, ⟨_, hm, rfl⟩, ⟨_, _, _, ⟨_, hn, rfl, rfl⟩, ⟨_, (), _, ⟨_, hcolon, rfl⟩,
      ⟨_, _, [], ⟨_, ht, rfl⟩, ⟨rfl, rfl⟩, rfl⟩, rfl⟩, rfl⟩, rfl⟩
  · rintro ⟨-, -, -, ⟨m, hm, rfl⟩, ⟨-, -, -, ⟨n, hn, rfl, rfl⟩, ⟨-, -, -, ⟨colon, hcolon, rfl⟩,
      ⟨-, ty, -, ⟨t, ht, rfl⟩, ⟨rfl, rfl⟩, rfl⟩, rfl⟩, rfl⟩, heq⟩
    cases heq
    exact .mk hm hn hcolon ht

section Items

variable {item : Parser α} {D : List Token → α → Prop}

/-- Where the next token is a mark, there is a token. -/
theorem exists_cons_of_isMark {c : Char} (h : s.current.kind = .mark c) :
    ∃ tok rest, s = .cons tok rest ∧ tok.IsMark c := by
  cases s with
  | cons tok rest => exact ⟨tok, rest, rfl, h⟩
  | eof pos => cases h
  | broken pos why => cases h

theorem itemsFrom_sound (hitem : Takes item D) (fuel : Nat) :
    ∀ s, s.Proper → s.Readable → ∀ as t, itemsFrom item fuel s = .ok (as, t) →
      t.Readable ∧ ∃ l, Separated D l as ∧ s = l ++ t := by
  induction fuel with
  | zero =>
    intro s hs hr as t hrun
    obtain ⟨rfl, rfl⟩ := pure_eq_ok.mp hrun
    exact ⟨hr, [], .none, rfl⟩
  | succ fuel ih =>
    intro s hs hr as t hrun
    rw [itemsFrom, bind_of_ok (atMark_run ')' s)] at hrun
    by_cases hclose : s.current.kind = .mark ')'
    · simp only [hclose, decide_true, if_true] at hrun
      obtain ⟨rfl, rfl⟩ := pure_eq_ok.mp hrun
      exact ⟨hr, [], .none, rfl⟩
    · simp only [hclose, decide_false, Bool.false_eq_true, if_false] at hrun
      obtain ⟨x, s₁, hx, hmore⟩ := bind_eq_ok.mp hrun
      obtain ⟨hr₁, l, hl, rfl⟩ := (hitem s hs hr x s₁).mp hx
      rw [bind_of_ok (atMark_run ',' s₁)] at hmore
      by_cases hcomma : s₁.current.kind = .mark ','
      · simp only [hcomma, decide_true, if_true] at hmore
        obtain ⟨comma, s₂, rfl, hcomma'⟩ := exists_cons_of_isMark hcomma
        obtain ⟨u, s₃, hadv, hmore⟩ := bind_eq_ok.mp hmore
        obtain ⟨hr₂, rfl⟩ := advance_cons_eq_ok.mp hadv
        obtain ⟨rest, s₄, hrest, hpure⟩ := bind_eq_ok.mp hmore
        obtain ⟨rfl, rfl⟩ := pure_eq_ok.mp hpure
        obtain ⟨hr₃, l', hl', rfl⟩ := ih s₂ hs.of_append.2 hr₂ rest s₄ hrest
        exact ⟨hr₃, l ++ comma :: l', .more hl hcomma' hl', by simp⟩
      · simp only [hcomma, decide_false, Bool.false_eq_true, if_false] at hmore
        obtain ⟨rfl, rfl⟩ := pure_eq_ok.mp hmore
        exact ⟨hr₁, l, .last hl, rfl⟩

/-- One round of the loop, at an item. -/
theorem itemsFrom_succ {l : List Token} {a : α} {fuel : Nat} (hitem : Takes item D) (hl : D l a)
    (hopen : (l ++ t).current.kind ≠ .mark ')') (hs : (l ++ t).Proper) (ht : t.Readable) :
    itemsFrom item (fuel + 1) (l ++ t) =
      (if t.current.kind = .mark ',' then do advance; return a :: (← itemsFrom item fuel)
        else pure [a] : Parser (List α)) t := by
  rw [itemsFrom, bind_of_ok (atMark_run ')' _)]
  simp only [hopen, decide_false, Bool.false_eq_true, if_false]
  rw [bind_of_ok (hitem.run hl hs ht), bind_of_ok (atMark_run ',' t)]
  simp only [decide_eq_true_eq]

theorem itemsFrom_complete (hitem : Takes item D)
    (hopen : ∀ l a, D l a → ∃ tok l', l = tok :: l' ∧ ¬tok.IsMark ')') {l : List Token}
    {as : List α} {tok : Token} (hl : Separated D l as) (htok : tok.IsMark ')') :
    ∀ fuel, (l ++ TokenStream.cons tok t).length < fuel → (l ++ TokenStream.cons tok t).Proper →
      itemsFrom item fuel (l ++ TokenStream.cons tok t) = .ok (as, .cons tok t) := by
  have hnot : ∀ {l a} (s : TokenStream), D l a → (l ++ s).current.kind ≠ .mark ')' := by
    intro l a s hla
    obtain ⟨tok, l', rfl, hne⟩ := hopen l a hla
    exact hne
  induction hl with
  | none =>
    rintro (_ | fuel) hfuel hs
    · omega
    · have hclose : (TokenStream.cons tok t).current.kind = .mark ')' := htok
      rw [TokenStream.nil_append, itemsFrom, bind_of_ok (atMark_run ')' _)]
      simp only [hclose, decide_true, if_true]
      rfl
  | last hla =>
    rintro (_ | fuel) hfuel hs
    · omega
    · have hcomma : (TokenStream.cons tok t).current.kind ≠ .mark ',' := by
        simp [TokenStream.current_cons, show tok.kind = .mark ')' from htok]
      rw [itemsFrom_succ hitem hla (hnot _ hla) hs TokenStream.readable_cons, if_neg hcomma]
      rfl
  | @more l l' a as comma hla hcomma hl' ih =>
    rintro (_ | fuel) hfuel hs
    · omega
    · simp only [TokenStream.append_append, TokenStream.cons_append,
        TokenStream.length_append, TokenStream.length] at hfuel hs ⊢
      rw [itemsFrom_succ hitem hla (hnot _ hla) hs TokenStream.readable_cons,
        TokenStream.current_cons, if_pos (show _ = TokenKind.mark ',' from hcomma),
        bind_of_ok (advance_cons TokenStream.readable_cons.append),
        bind_of_ok (ih fuel (by simp [TokenStream.length]; omega) hs.of_append.2)]
      rfl

/-- **A list of items is read up to the closing parenthesis.** -/
theorem closes_items (hitem : Takes item D)
    (hopen : ∀ l a, D l a → ∃ tok l', l = tok :: l' ∧ ¬tok.IsMark ')') :
    Closes (do itemsFrom item ((← tokensLeft) + 1)) (Separated D) ')' where
  sound s hs hr as t hrun _ := by
    rw [bind_of_ok (tokensLeft_run s)] at hrun
    exact itemsFrom_sound hitem _ s hs hr as t hrun
  complete l as tok t hl htok hs := by
    rw [bind_of_ok (tokensLeft_run _)]
    exact itemsFrom_complete hitem hopen hl htok _ (Nat.lt_succ_self _) hs

end Items

/-- The arguments of a call, and what follows their closing parenthesis. -/
theorem takes_args {k : List Operand → Parser β} {E : List Operand → List Token → β → Prop}
    (hk : ∀ args, Takes (k args) (E args)) :
    Takes (do let args ← argsFrom ((← tokensLeft) + 1); mark ')'; k args) fun l b =>
      ∃ l₁ args tok l₂, Separated IsOperand l₁ args ∧ tok.IsMark ')' ∧ E args l₂ b ∧
        l = l₁ ++ tok :: l₂ := by
  have hitems := (closes_items takes_operand fun l a h => ?_).bind hk
  · simpa only [bind_assoc, ← argsFrom_eq] using hitems
  · cases h with
    | value hm => exact ⟨_, _, rfl, fun hclose => absurd (hm.symm.trans hclose) (by decide)⟩
    | global hm => exact ⟨_, _, rfl, fun hclose => absurd (hm.symm.trans hclose) (by decide)⟩
    | literal hint => exact ⟨_, _, rfl, fun hclose => absurd (hint.symm.trans hclose) (by decide)⟩
    | negative hm => exact ⟨_, _, rfl, fun hclose => absurd (hm.symm.trans hclose) (by decide)⟩

/-- The parameters of a function, and what follows their closing parenthesis. -/
theorem takes_params {k : List ParamSyntax → Parser β}
    {E : List ParamSyntax → List Token → β → Prop} (hk : ∀ params, Takes (k params) (E params)) :
    Takes (do let params ← paramsFrom ((← tokensLeft) + 1); mark ')'; k params) fun l b =>
      ∃ l₁ params tok l₂, Separated IsParam l₁ params ∧ tok.IsMark ')' ∧ E params l₂ b ∧
        l = l₁ ++ tok :: l₂ := by
  have hitems := (closes_items takes_param fun l a h => ?_).bind hk
  · simpa only [bind_assoc, ← paramsFrom_eq] using hitems
  · obtain ⟨hm, -, -, -⟩ := h
    exact ⟨_, _, rfl, fun hclose => absurd (hm.symm.trans hclose) (by decide)⟩

/-! ### Instructions -/

theorem parse_void : Ty.parse "void" = .ok .void := rfl

/-- The types that have a name. -/
theorem parse_cases {text : String} {t : Ty} (h : Ty.parse text = .ok t) :
    text = "void" ∧ t = .void ∨ text = "ptr" ∧ t = .ptr ∨
      ∃ n ∈ Ty.widths, t = .int (UInt8.ofNat n.toNat) := by
  unfold Ty.parse at h
  split at h
  · next htext => exact .inl ⟨htext, (Except.ok.inj h).symm⟩
  · split at h
    · next htext => exact .inr (.inl ⟨htext, (Except.ok.inj h).symm⟩)
    · split at h
      · split at h
        · cases h
        · split at h
          · cases h
          · split at h
            · next hwidth =>
              exact .inr (.inr ⟨_, List.contains_iff_mem.mp hwidth, (Except.ok.inj h).symm⟩)
            · cases h
      · cases h

theorem isVoid_iff_of_parse {text : String} {t : Ty} (h : Ty.parse text = .ok t) :
    t.isVoid = true ↔ t = .void := by
  rcases parse_cases h with ⟨-, rfl⟩ | ⟨-, rfl⟩ | ⟨n, -, rfl⟩
  · exact iff_of_true rfl rfl
  · exact iff_of_false (by decide) (by decide)
  · exact iff_of_false (by simp [Ty.isVoid, Ty.int]) (by simp [Ty.void, Ty.int])

theorem eq_void_of_parse {text : String} (h : Ty.parse text = .ok .void) : text = "void" := by
  rcases parse_cases h with ⟨rfl, -⟩ | ⟨-, hptr⟩ | ⟨n, -, hint⟩
  · rfl
  · cases hptr
  · simp [Ty.void, Ty.int] at hint

/-- The two forms of a return. -/
theorem completes_ret_iff {i j : InstrSyntax} {l : List Token} (hop : i.op = .ret) :
    Completes i l j ↔ (∃ t, t.IsWord "void" ∧ l = [t] ∧ j = i) ∨
      ∃ t elem l' x, t.IsType elem ∧ elem ≠ .void ∧ IsOperand l' x ∧ l = t :: l' ∧
        j = { i with elem := elem, args := [x] } := by
  constructor
  · intro h
    cases h with
    | retVoid _ ht => exact .inl ⟨_, ht, rfl, rfl⟩
    | ret _ ht hne hx => exact .inr ⟨_, _, _, _, ht, hne, hx, rfl, rfl⟩
    | _ => simp_all
  · rintro (⟨t, ht, rfl, rfl⟩ | ⟨t, elem, l', x, ht, hne, hx, rfl, rfl⟩)
    · exact .retVoid hop ht
    · exact .ret hop ht hne hx

/-- A return names a type and a value, or says that there is none. -/
theorem takes_ret {i : InstrSyntax} (hop : i.op = .ret) :
    Takes (do
      let t ← current
      if t.kind = .word && t.text = "void" then
        advance
        pure i
      else
        let elem ← ty
        pure { i with elem := elem, args := [← operand] }) (Completes i) := by
  refine takes_current ?_ (fun pos r h => ?_) fun tok => ?_
  · simp [completes_ret_iff hop]
  · rw [if_neg (by simp)] at h
    obtain ⟨elem, s, hty, -⟩ := bind_eq_ok.mp h
    obtain ⟨-, -, ⟨t, -, rfl⟩, heq⟩ := (takes_ty (.eof pos) trivial nofun _ _).mp hty
    cases heq
  · by_cases hvoid : tok.IsWord "void"
    · have hvoid' : (decide (tok.kind = .word) && decide (tok.text = "void")) = true := by
        simpa [Token.IsWord] using hvoid
      rw [if_pos hvoid']
      refine .advance (.pure i) fun l j => ?_
      rw [completes_ret_iff hop]
      constructor
      · rintro (⟨t, -, heq, rfl⟩ | ⟨t, elem, l', x, ht, hne, -, heq, -⟩)
        · cases heq
          exact ⟨rfl, rfl⟩
        · cases heq
          have hparse := ht.2
          rw [hvoid.2, parse_void] at hparse
          exact absurd (Except.ok.inj hparse).symm hne
      · rintro ⟨rfl, rfl⟩
        exact .inl ⟨tok, hvoid, rfl, rfl⟩
    · have hvoid' : ¬(decide (tok.kind = .word) && decide (tok.text = "void")) = true := by
        simpa [Token.IsWord] using hvoid
      rw [if_neg hvoid']
      refine (takes_ty.bind fun elem => takes_operand.bind fun x => .pure _).takesAt ?_ fun l j => ?_
      · rintro a ⟨l₁, elem, l₂, ⟨t, -, rfl⟩, -, heq⟩
        cases heq
      rw [completes_ret_iff hop]
      constructor
      · rintro (⟨t, ht, heq, -⟩ | ⟨t, elem, l', x, ht, hne, hx, heq, rfl⟩)
        · cases heq
          exact absurd ht hvoid
        · cases heq
          exact ⟨_, _, _, ⟨_, ht, rfl⟩, ⟨_, _, [], hx, ⟨rfl, rfl⟩, rfl⟩, by simp⟩
      · rintro ⟨-, elem, -, ⟨t, ht, rfl⟩, ⟨l', x, -, hx, ⟨rfl, rfl⟩, rfl⟩, heq⟩
        cases heq
        refine .inr ⟨_, _, _, _, ht, ?_, hx, by simp, rfl⟩
        rintro rfl
        exact hvoid ⟨ht.1, eq_void_of_parse ht.2⟩

/-- A type and two operands. -/
theorem takes_typedPair {g : Ty → List Operand → InstrSyntax} {D : List Token → InstrSyntax → Prop}
    (hD : ∀ l j, D l j ↔ ∃ (t : Token) (elem : Ty) (l' : List Token) (args : List Operand),
      t.IsType elem ∧ IsPair l' args ∧ l = t :: l' ∧ j = g elem args) :
    Takes (do
      let elem ← ty
      pure (g elem (← operandPair))) D := by
  refine (takes_ty.bind fun elem => takes_operandPair.bind fun args => .pure _).congr fun l j => ?_
  rw [hD]
  constructor
  · rintro ⟨-, elem, -, ⟨t, ht, rfl⟩, ⟨l', args, -, hargs, ⟨rfl, rfl⟩, rfl⟩, rfl⟩
    exact ⟨t, elem, l', args, ht, hargs, by simp, rfl⟩
  · rintro ⟨t, elem, l', args, ht, hargs, rfl, rfl⟩
    exact ⟨_, _, _, ⟨_, ht, rfl⟩, ⟨_, _, [], hargs, ⟨rfl, rfl⟩, rfl⟩, by simp⟩

theorem takes_call {i : InstrSyntax} (hop : i.op = .call) :
    Takes (do
      let ty ← ty
      mark '@'
      let callee ← name
      mark '('
      let args ← argsFrom ((← tokensLeft) + 1)
      mark ')'
      pure { i with ty := ty, callee := callee, args := args }) (Completes i) := by
  refine (takes_ty.bind fun ty => (takes_mark '@').bind fun _ => takes_name.bind fun callee =>
    (takes_mark '(').bind fun _ => takes_args fun args => .pure _).congr fun l j => ⟨?_, ?_⟩
  · rintro ⟨-, ty, -, ⟨t, ht, rfl⟩, ⟨-, -, -, ⟨m, hm, rfl⟩, ⟨-, -, -, ⟨n, hn, rfl, rfl⟩,
      ⟨-, -, -, ⟨opening, hopen, rfl⟩, ⟨l, args, closing, -, hargs, hclose, ⟨rfl, rfl⟩, rfl⟩,
      rfl⟩, rfl⟩, rfl⟩, rfl⟩
    exact .call hop ht hm hn hopen hargs hclose
  · intro h
    cases h with
    | call _ ht hm hn hopen hargs hclose =>
      exact ⟨_, _, _, ⟨_, ht, rfl⟩, ⟨_, (), _, ⟨_, hm, rfl⟩, ⟨_, _, _, ⟨_, hn, rfl, rfl⟩,
        ⟨_, (), _, ⟨_, hopen, rfl⟩, ⟨_, _, _, [], hargs, hclose, ⟨rfl, rfl⟩, rfl⟩,
        rfl⟩, rfl⟩, rfl⟩, rfl⟩
    | _ => simp_all

theorem takes_condbr {i : InstrSyntax} (hop : i.op = .condbr) :
    Takes (do
      let cond ← operand
      mark ','
      let yes ← target
      mark ','
      let no ← target
      pure { i with args := [cond], targets := [yes, no] }) (Completes i) := by
  refine (takes_operand.bind fun cond => (takes_mark ',').bind fun _ => takes_target.bind fun yes =>
    (takes_mark ',').bind fun _ => takes_target.bind fun no => .pure _).congr fun l j => ⟨?_, ?_⟩
  · rintro ⟨l, x, -, hx, ⟨-, -, -, ⟨comma, hcomma, rfl⟩, ⟨-, -, -, ⟨yes, hyes, rfl, rfl⟩,
      ⟨-, -, -, ⟨comma', hcomma', rfl⟩, ⟨-, -, -, ⟨no, hno, rfl, rfl⟩, ⟨rfl, rfl⟩, rfl⟩,
      rfl⟩, rfl⟩, rfl⟩, rfl⟩
    exact .condbr hop hx hcomma hyes hcomma' hno
  · intro h
    cases h with
    | condbr _ hx hcomma hyes hcomma' hno =>
      exact ⟨_, _, _, hx, ⟨_, (), _, ⟨_, hcomma, rfl⟩, ⟨_, _, _, ⟨_, hyes, rfl, rfl⟩,
        ⟨_, (), _, ⟨_, hcomma', rfl⟩, ⟨_, _, [], ⟨_, hno, rfl, rfl⟩, ⟨rfl, rfl⟩, rfl⟩,
        rfl⟩, rfl⟩, rfl⟩, rfl⟩
    | _ => simp_all

/-- The operands of an instruction are read as the grammar says, operation by operation. -/
theorem takes_instrBody {i : InstrSyntax} (hop : i.op ∈ Opcode.named) :
    Takes (instrBody i) (Completes i) := by
  unfold instrBody
  split
  · next hop =>
    refine takes_typedPair fun l j => ⟨fun h => ?_, ?_⟩
    · cases h with
      | cmp _ ht hargs => exact ⟨_, _, _, _, ht, hargs, rfl, rfl⟩
      | _ => simp_all
    · rintro ⟨t, elem, l', args, ht, hargs, rfl, rfl⟩
      exact .cmp hop ht hargs
  · next hop =>
    refine (takes_ty.bind fun elem => .pure _).congr fun l j => ⟨?_, ?_⟩
    · rintro ⟨-, elem, -, ⟨t, ht, rfl⟩, ⟨rfl, rfl⟩, rfl⟩
      exact .alloca hop ht
    · intro h
      cases h with
      | alloca _ ht => exact ⟨_, _, [], ⟨_, ht, rfl⟩, ⟨rfl, rfl⟩, rfl⟩
      | _ => simp_all
  · next hop =>
    refine (takes_ty.bind fun ty => (takes_mark ',').bind fun _ =>
      takes_operand.bind fun x => .pure _).congr fun l j => ⟨?_, ?_⟩
    · rintro ⟨-, ty, -, ⟨t, ht, rfl⟩, ⟨-, -, -, ⟨comma, hcomma, rfl⟩,
        ⟨l, x, -, hx, ⟨rfl, rfl⟩, rfl⟩, rfl⟩, rfl⟩
      simpa using Completes.load hop ht hcomma hx
    · intro h
      cases h with
      | load _ ht hcomma hx =>
        exact ⟨_, _, _, ⟨_, ht, rfl⟩, ⟨_, (), _, ⟨_, hcomma, rfl⟩,
          ⟨_, _, [], hx, ⟨rfl, rfl⟩, rfl⟩, rfl⟩, by simp⟩
      | _ => simp_all
  · next hop =>
    refine takes_typedPair fun l j => ⟨fun h => ?_, ?_⟩
    · cases h with
      | store _ ht hargs => exact ⟨_, _, _, _, ht, hargs, rfl, rfl⟩
      | _ => simp_all
    · rintro ⟨t, elem, l', args, ht, hargs, rfl, rfl⟩
      exact .store hop ht hargs
  · next hop => exact takes_call hop
  · next hop =>
    refine (takes_target.bind fun target => .pure _).congr fun l j => ⟨?_, ?_⟩
    · rintro ⟨-, target, -, ⟨n, hn, rfl, rfl⟩, ⟨rfl, rfl⟩, rfl⟩
      exact .br hop hn
    · intro h
      cases h with
      | br _ hn => exact ⟨_, _, [], ⟨_, hn, rfl, rfl⟩, ⟨rfl, rfl⟩, rfl⟩
      | _ => simp_all
  · next hop => exact takes_condbr hop
  · next hop => exact takes_ret hop
  · next hcmp halloca hload hstore hcall hbr hcondbr hret =>
    -- What remains of the operations that have a name is arithmetic.
    have harith : i.op ∈ [.add, .sub, .mul, .div] := by
      simp_all [Opcode.named]
    refine takes_typedPair fun l j => ⟨fun h => ?_, ?_⟩
    · cases h with
      | arith _ ht hargs => exact ⟨_, _, _, _, ht, hargs, rfl, rfl⟩
      | _ => simp_all
    · rintro ⟨t, elem, l', args, ht, hargs, rfl, rfl⟩
      exact .arith harith ht hargs

theorem isVoid_iff_of_completes {i j : InstrSyntax} {l : List Token} (h : Completes i l j)
    (hi : i.ty = .void) : j.ty.isVoid = true ↔ j.ty = .void := by
  cases h with
  | arith _ ht => exact isVoid_iff_of_parse ht.2
  | cmp => exact (by decide : Ty.i1.isVoid = true ↔ Ty.i1 = .void)
  | alloca => exact (by decide : Ty.ptr.isVoid = true ↔ Ty.ptr = .void)
  | load _ ht => exact isVoid_iff_of_parse ht.2
  | call _ ht => exact isVoid_iff_of_parse ht.2
  | _ => exact iff_of_true (by rw [hi]; rfl) hi

theorem endOfLine_eq_ok {u : Unit} : endOfLine s = .ok (u, t) ↔ s.LineEnds ∧ s = t := by
  unfold endOfLine TokenStream.LineEnds
  rw [bind_of_ok (current_run s)]
  by_cases hend : s.current.kind = .mark '\n' ∨ s.current.kind = .eof
  · have hend' : (decide (s.current.kind = .mark '\n') || decide (s.current.kind = .eof)) = true := by
      simpa using hend
    rw [if_pos hend', pure_eq_ok]
    simp [hend]
  · have hend' :
        ¬(decide (s.current.kind = .mark '\n') || decide (s.current.kind = .eof)) = true := by
      simpa using hend
    rw [if_neg hend']
    exact iff_of_false (fun h => fail_eq_ok.mp h) fun h => hend h.1

/-- What an instruction takes behind its operation.  The line ends there. -/
theorem instr_eq_ok {pos : Position} {name word : String} {i : InstrSyntax} (hs : s.Proper)
    (hr : s.Readable) :
    instr pos name word s = .ok (i, t) ↔ t.Readable ∧ t.LineEnds ∧ ∃ op l,
      Opcode.parse? word = some op ∧ Completes { pos := pos, op := op, name := name } l i ∧
      (name ≠ "" → i.ty ≠ .void) ∧ s = l ++ t := by
  unfold instr
  cases hop : Opcode.parse? word with
  | none => exact iff_of_false (fun h => fail_eq_ok.mp h) (by simp)
  | some op =>
    have hbody := takes_instrBody (i := { pos := pos, op := op, name := name })
      (List.mem_of_find?_eq_some hop)
    -- Only an instruction without a result is refused its name.
    have hnamed : ∀ {j l}, Completes { pos := pos, op := op, name := name } l j →
        (¬(decide (name ≠ "") && j.ty.isVoid) = true ↔ (name ≠ "" → j.ty ≠ .void)) := by
      intro j l hl
      rw [Bool.and_eq_true, isVoid_iff_of_completes hl rfl, decide_eq_true_iff, not_and]
    change (_ >>= _ : Parser InstrSyntax) s = _ ↔ _
    rw [bind_eq_ok]
    constructor
    · rintro ⟨j, s', hj, hrun⟩
      obtain ⟨hr', l, hl, rfl⟩ := (hbody s hs hr j s').mp hj
      obtain ⟨hname, hrun⟩ := check_eq_ok.mp hrun
      obtain ⟨u, s'', hline, hpure⟩ := bind_eq_ok.mp hrun
      obtain ⟨hend, rfl⟩ := endOfLine_eq_ok.mp hline
      obtain ⟨rfl, rfl⟩ := pure_eq_ok.mp hpure
      exact ⟨hr', hend, op, l, rfl, hl, (hnamed hl).mp hname, rfl⟩
    · rintro ⟨ht, hend, op', l, ⟨⟩, hl, hname, rfl⟩
      refine ⟨i, t, hbody.run hl hs ht, check_eq_ok.mpr ⟨(hnamed hl).mpr hname, ?_⟩⟩
      exact bind_eq_ok.mpr ⟨(), t, endOfLine_eq_ok.mpr ⟨hend, rfl⟩, rfl⟩

end Parser

end Midend.Source
