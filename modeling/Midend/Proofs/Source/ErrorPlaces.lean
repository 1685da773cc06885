import Mathlib.Control.Monad.Basic
import Midend.Proofs.Action.Runs
import Midend.Proofs.Source.LinePlaces
import Midend.Source.Resolve

/-!
# Where errors are

A text is refused while its tokens are read, while they are parsed, or when all of them have been parsed
and the names are resolved.  The parser complains about the token it looks at, or about one it has kept the
place of.  The resolver sees no tokens any more, but all that it can complain about has kept its place.  So
every error stands at a token, or where the tokens end.

## Main definitions

* `Locates`: an action that stops only at certain places.
* `InstrSyntax.Placed`, `BlockSyntax.Placed`, `FuncSyntax.Placed`: all places of a syntax are among
  certain ones.

## Main results

* `ProgramSyntax.locates_parse`: errors of the parser, and the places that it keeps.
* `locates_resolveFuncs`: errors of the resolver.
* `Program.parse_error_inside`: every error is in the file.
-/

namespace Midend.Source

variable {σ α β : Type} {P : Position → Prop}

/-! ### Actions that know where they are -/

/-- Run from a state with `I`, the action is refused at a place with `P`, or it ends in a state with `I`
and a result with `Q`. -/
def Locates (P : Position → Prop) (I : σ → Prop) (m : StateT σ (Except SourceError) α)
    (Q : α → Prop) : Prop :=
  ∀ s, I s → Yields m s (fun a t => Q a ∧ I t) ∧ ∀ e, m s = .error e → P e.pos

namespace Locates

variable {I : σ → Prop} {Q : α → Prop} {R : β → Prop}

theorem pure {a : α} (h : Q a) : Locates P I (pure a) Q :=
  fun _ hs => ⟨(yields_pure a).mpr ⟨h, hs⟩, fun _ he => by cases he⟩

theorem throw {e : SourceError} (h : P e.pos) : Locates P I (throw e) Q := by
  refine fun s _ => ⟨yields_throw e, fun e' he => ?_⟩
  obtain rfl : e = e' := Except.error.inj he
  exact h

theorem bind {m : StateT σ (Except SourceError) α} {f : α → StateT σ (Except SourceError) β}
    (hm : Locates P I m Q) (hf : ∀ a, Q a → Locates P I (f a) R) : Locates P I (m >>= f) R := by
  intro s hs
  obtain ⟨hok, herror⟩ := hm s hs
  constructor
  · exact (yields_bind m f).mpr (hok.mono fun a t ha => (hf a ha.1 t ha.2).1)
  · intro e he
    rcases bind_eq_error.mp he with he | ⟨a, t, hrun, he⟩
    · exact herror e he
    · obtain ⟨ha, ht⟩ := hok a t hrun
      exact (hf a ha t ht).2 e he

/-- Where nothing need be known of the first result. -/
theorem after {m : StateT σ (Except SourceError) α} {f : α → StateT σ (Except SourceError) β}
    (hm : Locates P I m Q) (hf : ∀ a, Locates P I (f a) R) : Locates P I (m >>= f) R :=
  hm.bind fun a _ => hf a

/-- A check that may stop the action. -/
theorem check {c : Prop} [Decidable c] {e : SourceError} {k : PUnit → StateT σ (Except SourceError) β}
    (h : P e.pos) (hk : Locates P I (k ⟨⟩) R) :
    Locates P I (if c then MonadExcept.throw e >>= k else k ⟨⟩) R := by
  split
  · exact (throw (Q := fun _ => False) h).bind fun _ hfalse => hfalse.elim
  · exact hk

theorem get : Locates P I (get : StateT σ (Except SourceError) σ) I :=
  fun _ hs => ⟨yields_get.mpr ⟨hs, hs⟩, fun _ he => by cases he⟩

theorem set {s : σ} (h : I s) :
    Locates P I (set s : StateT σ (Except SourceError) PUnit) fun _ => True := by
  refine fun _ _ => ⟨fun u t hrun => ?_, fun _ he => by cases he⟩
  obtain rfl := set_eq_ok.mp hrun
  exact ⟨trivial, h⟩

theorem modifyGet {g : σ → α × σ} (h : ∀ s, I s → I (g s).2) :
    Locates P I (modifyGet g : StateT σ (Except SourceError) α) fun _ => True :=
  fun s hs => ⟨(yields_modifyGet g).mpr ⟨trivial, h s hs⟩, fun _ he => by cases he⟩

theorem modify {g : σ → σ} (h : ∀ s, I s → I (g s)) :
    Locates P I (modify g : StateT σ (Except SourceError) PUnit) fun _ => True :=
  fun s hs => ⟨(yields_modify g).mpr ⟨trivial, h s hs⟩, fun _ he => by cases he⟩

theorem discard {m : StateT σ (Except SourceError) α} (hm : Locates P I m Q) :
    Locates P I (discard m) fun _ => True :=
  hm.after fun _ => .pure trivial

/-- The result without the state. -/
theorem run' {m : StateT σ (Except SourceError) α} (h : Locates P I m Q) {s : σ} (hs : I s) :
    (∀ e, m.run' s = .error e → P e.pos) ∧ ∀ a, m.run' s = .ok a → Q a := by
  obtain ⟨hok, herror⟩ := h s hs
  constructor
  · exact fun e he => herror e (eq_error_of_map he)
  · intro a ha
    obtain ⟨t, hrun⟩ := run'_eq_ok.mp ha
    exact (hok a t hrun).1

end Locates

/-! ### Places in the syntax -/

/-- Whatever can be complained about in an instruction stands at a place with `P`. -/
structure InstrSyntax.Placed (P : Position → Prop) (i : InstrSyntax) : Prop where
  /-- The instruction itself. -/
  pos : P i.pos
  /-- Its operands. -/
  args : ∀ a ∈ i.args, P a.pos
  /-- The labels it jumps to. -/
  targets : ∀ t ∈ i.targets, P t.pos

/-- Whatever can be complained about in a block stands at a place with `P`. -/
structure BlockSyntax.Placed (P : Position → Prop) (b : BlockSyntax) : Prop where
  /-- The label. -/
  pos : P b.pos
  /-- The instructions. -/
  instrs : ∀ i ∈ b.instrs, i.Placed P

/-- Whatever can be complained about in a function stands at a place with `P`. -/
structure FuncSyntax.Placed (P : Position → Prop) (f : FuncSyntax) : Prop where
  /-- The function itself. -/
  pos : P f.pos
  /-- Its parameters. -/
  params : ∀ a ∈ f.params, P a.pos
  /-- Its blocks. -/
  blocks : ∀ b ∈ f.blocks, b.Placed P

theorem placed_addToLast {blocks : List BlockSyntax} {i : InstrSyntax}
    (hblocks : ∀ b ∈ blocks, b.Placed P) (hi : i.Placed P) :
    ∀ b ∈ Parser.addToLast blocks i, b.Placed P := by
  intro b hb
  unfold Parser.addToLast at hb
  split at hb
  · cases hb
  · next last before hrev =>
    have hmem : ∀ c ∈ last :: before, c.Placed P := by
      intro c hc
      rw [← hrev, List.mem_reverse] at hc
      exact hblocks c hc
    have hlast := hmem last List.mem_cons_self
    rw [List.mem_append, List.mem_reverse, List.mem_singleton] at hb
    rcases hb with hb | rfl
    · exact hmem b (List.mem_cons_of_mem last hb)
    · refine ⟨hlast.pos, fun j hj => ?_⟩
      rcases List.mem_append.mp hj with hj | hj
      · exact hlast.instrs j hj
      · rw [List.mem_singleton.mp hj]
        exact hi

/-! ### Tokens -/

/-- The tokens of a stream stand at places with `P`, and it ends at one. -/
def TokenStream.Placed (P : Position → Prop) (s : TokenStream) : Prop := ∀ pos ∈ s.places, P pos

theorem TokenStream.Placed.current {s : TokenStream} (h : s.Placed P) : P s.current.pos := by
  cases s with
  | eof pos => exact h pos List.mem_cons_self
  | broken pos why => exact h pos List.mem_cons_self
  | cons t rest => exact h t.pos List.mem_cons_self

theorem TokenStream.Placed.dropNewlines {s : TokenStream} (h : s.Placed P) : s.dropNewlines.Placed P := by
  induction s with
  | eof pos => exact h
  | broken pos why => exact h
  | cons t rest ih =>
    rw [TokenStream.dropNewlines]
    split
    · exact ih fun pos hpos => h pos (List.mem_cons_of_mem _ hpos)
    · exact h

namespace Parser

theorem locates_enter {s : TokenStream} (h : s.Placed P) :
    Locates P (TokenStream.Placed P) (enter s) fun _ => True := by
  cases s with
  | broken pos why => exact .throw (h pos List.mem_cons_self)
  | eof pos => exact .set h
  | cons t rest => exact .set h

theorem locates_current : Locates P (TokenStream.Placed P) current fun t => P t.pos :=
  .bind .get fun _ hs => .pure hs.current

theorem locates_advance : Locates P (TokenStream.Placed P) advance fun _ => True := by
  refine .bind .get fun s hs => ?_
  cases s with
  | cons t rest => exact locates_enter fun pos hpos => hs pos (List.mem_cons_of_mem _ hpos)
  | eof pos => exact .pure trivial
  | broken pos why => exact .pure trivial

theorem locates_tokensLeft : Locates P (TokenStream.Placed P) tokensLeft fun _ => True :=
  .bind .get fun _ _ => .pure trivial

theorem locates_atMark (c : Char) : Locates P (TokenStream.Placed P) (atMark c) fun _ => True :=
  locates_current.after fun _ => .pure trivial

theorem locates_mark (c : Char) : Locates P (TokenStream.Placed P) (mark c) fun _ => True := by
  refine locates_current.bind fun t ht => ?_
  split
  · exact locates_advance
  · exact .throw ht

theorem locates_word : Locates P (TokenStream.Placed P) word fun _ => True := by
  refine locates_current.bind fun t ht => ?_
  split
  · exact locates_advance.after fun _ => .pure trivial
  · exact .throw ht

theorem locates_name : Locates P (TokenStream.Placed P) name fun _ => True := by
  refine locates_current.bind fun t ht => ?_
  split
  · exact locates_advance.after fun _ => .pure trivial
  · exact .throw ht

theorem locates_ty : Locates P (TokenStream.Placed P) ty fun _ => True := by
  refine locates_current.bind fun t ht => locates_word.after fun w => ?_
  split
  · exact .pure trivial
  · exact .throw ht

theorem locates_endOfLine : Locates P (TokenStream.Placed P) endOfLine fun _ => True := by
  refine locates_current.bind fun t ht => ?_
  split
  · exact .pure trivial
  · exact .throw ht

theorem locates_skipLines : Locates P (TokenStream.Placed P) skipLines fun _ => True :=
  .bind .get fun _ hs => locates_enter hs.dropNewlines

/-! ### Instructions -/

theorem locates_integer {pos : Position} (hpos : P pos) (negative : Bool) :
    Locates P (TokenStream.Placed P) (integer pos negative) fun a => P a.pos := by
  refine locates_current.after fun t => ?_
  split
  · exact .throw hpos
  · dsimp only
    split
    · exact .throw hpos
    · exact locates_advance.after fun _ => .pure hpos

theorem locates_operand : Locates P (TokenStream.Placed P) operand fun a => P a.pos := by
  refine locates_current.bind fun t ht => ?_
  split
  · exact locates_advance.after fun _ => locates_name.after fun _ => .pure ht
  · exact locates_advance.after fun _ => locates_name.after fun _ => .pure ht
  · exact locates_advance.after fun _ => locates_integer ht true
  · exact locates_integer ht false

theorem locates_operandPair :
    Locates P (TokenStream.Placed P) operandPair fun l => ∀ a ∈ l, P a.pos := by
  refine locates_operand.bind fun x hx => (locates_mark ',').after fun _ =>
    locates_operand.bind fun y hy => .pure ?_
  simp [hx, hy]

theorem locates_target : Locates P (TokenStream.Placed P) target fun t => P t.pos :=
  locates_current.bind fun _ ht => locates_name.after fun _ => .pure ht

theorem locates_argsFrom (fuel : Nat) :
    Locates P (TokenStream.Placed P) (argsFrom fuel) fun l => ∀ a ∈ l, P a.pos := by
  induction fuel with
  | zero => exact .pure (by simp)
  | succ fuel ih =>
    refine (locates_atMark ')').after fun closed => ?_
    split
    · exact .pure (by simp)
    · refine locates_operand.bind fun x hx => (locates_atMark ',').after fun comma => ?_
      split
      · refine locates_advance.after fun _ => ih.bind fun l hl => .pure ?_
        simpa [hx] using hl
      · exact .pure (by simpa using hx)

theorem locates_instrBody {i : InstrSyntax} (h : i.Placed P) :
    Locates P (TokenStream.Placed P) (instrBody i) (·.Placed P) := by
  unfold instrBody
  split
  · exact locates_ty.after fun _ => locates_operandPair.bind fun args hargs =>
      .pure ⟨h.pos, hargs, h.targets⟩
  · exact locates_ty.after fun _ => .pure ⟨h.pos, h.args, h.targets⟩
  · exact locates_ty.after fun _ => (locates_mark ',').after fun _ => locates_operand.bind fun a ha =>
      .pure ⟨h.pos, by simpa using ha, h.targets⟩
  · exact locates_ty.after fun _ => locates_operandPair.bind fun args hargs =>
      .pure ⟨h.pos, hargs, h.targets⟩
  · exact locates_ty.after fun _ => (locates_mark '@').after fun _ => locates_name.after fun _ =>
      (locates_mark '(').after fun _ => locates_tokensLeft.after fun n =>
        (locates_argsFrom _).bind fun args hargs => (locates_mark ')').after fun _ =>
          .pure ⟨h.pos, hargs, h.targets⟩
  · exact locates_target.bind fun t ht => .pure ⟨h.pos, h.args, by simpa using ht⟩
  · exact locates_operand.bind fun cond hcond => (locates_mark ',').after fun _ =>
      locates_target.bind fun yes hyes => (locates_mark ',').after fun _ =>
        locates_target.bind fun no hno => .pure ⟨h.pos, by simpa using hcond, by simp [hyes, hno]⟩
  · refine locates_current.after fun t => ?_
    split
    · exact locates_advance.after fun _ => .pure h
    · exact locates_ty.after fun _ => locates_operand.bind fun a ha =>
        .pure ⟨h.pos, by simpa using ha, h.targets⟩
  · exact locates_ty.after fun _ => locates_operandPair.bind fun args hargs =>
      .pure ⟨h.pos, hargs, h.targets⟩

theorem locates_instr {pos : Position} (hpos : P pos) (name word : String) :
    Locates P (TokenStream.Placed P) (instr pos name word) (·.Placed P) := by
  unfold instr
  split
  · exact .throw hpos
  · refine (locates_instrBody ⟨hpos, by simp, by simp⟩).bind fun i hi => ?_
    exact .check hpos (locates_endOfLine.after fun _ => .pure hi)

/-! ### Declarations -/

theorem locates_bodyFrom (func : String) (fuel : Nat) (blocks : List BlockSyntax)
    (h : ∀ b ∈ blocks, b.Placed P) :
    Locates P (TokenStream.Placed P) (bodyFrom func fuel blocks) fun bs => ∀ b ∈ bs, b.Placed P := by
  induction fuel generalizing blocks with
  | zero => exact .pure h
  | succ fuel ih =>
    have hadd : ∀ i : InstrSyntax, i.Placed P → Locates P (TokenStream.Placed P)
        (bodyFrom func fuel (addToLast blocks i)) fun bs => ∀ b ∈ bs, b.Placed P :=
      fun i hi => ih _ (placed_addToLast h hi)
    unfold bodyFrom
    refine locates_skipLines.after fun _ => locates_current.bind fun t ht => ?_
    split
    · exact .pure h
    · -- An instruction with a name.
      exact locates_advance.after fun _ => locates_name.after fun result => (locates_mark '=').after
        fun _ => locates_word.after fun op => .check ht ((locates_instr ht _ _).bind hadd)
    · exact .throw ht
    · -- The first word of a line is a label or an operation.
      refine locates_name.after fun first => (locates_atMark ':').after fun colon => ?_
      split
      · refine locates_advance.after fun _ => ih _ fun b hb => ?_
        rcases List.mem_append.mp hb with hb | hb
        · exact h b hb
        · rw [List.mem_singleton.mp hb]
          exact ⟨ht, by simp⟩
      · split
        · exact .throw ht
        · exact (locates_instr ht _ _).bind hadd

theorem locates_paramsFrom (fuel : Nat) :
    Locates P (TokenStream.Placed P) (paramsFrom fuel) fun l => ∀ a ∈ l, P a.pos := by
  induction fuel with
  | zero => exact .pure (by simp)
  | succ fuel ih =>
    refine (locates_atMark ')').after fun closed => ?_
    split
    · exact .pure (by simp)
    · refine locates_current.bind fun t ht => (locates_mark '%').after fun _ => locates_name.after
        fun name => (locates_mark ':').after fun _ => locates_ty.after fun ty =>
          (locates_atMark ',').after fun comma => ?_
      split
      · refine locates_advance.after fun _ => ih.bind fun l hl => .pure ?_
        simpa [ht] using hl
      · exact .pure (by simpa using ht)

theorem locates_func {pos : Position} (hpos : P pos) :
    Locates P (TokenStream.Placed P) (func pos) (·.Placed P) := by
  refine (locates_mark '@').after fun _ => locates_name.after fun name => (locates_mark '(').after
    fun _ => locates_tokensLeft.after fun _ => (locates_paramsFrom _).bind fun params hparams =>
      (locates_mark ')').after fun _ => (locates_atMark ':').after fun colon => ?_
  have hrest : ∀ ret : Ty, Locates P (TokenStream.Placed P) (do
      mark '\x7b'
      let blocks ← bodyFrom name ((← tokensLeft) + 1) []
      mark '\x7d'
      endOfLine
      pure { pos := pos, name := name, ret := ret, params := params, blocks := blocks })
      (FuncSyntax.Placed P) := by
    intro ret
    exact (locates_mark _).after fun _ => locates_tokensLeft.after fun _ =>
      (locates_bodyFrom name _ [] (by simp)).bind fun blocks hblocks => (locates_mark _).after
        fun _ => locates_endOfLine.after fun _ => .pure ⟨hpos, hparams, hblocks⟩
  dsimp only
  split
  · exact locates_advance.after fun _ => locates_ty.after hrest
  · rw [pure_bind]
    exact hrest Ty.void

theorem locates_global {pos : Position} (hpos : P pos) (before : List GlobalSyntax) :
    Locates P (TokenStream.Placed P) (global pos before) fun _ => True :=
  (locates_mark '@').after fun _ => locates_name.after fun _ => (locates_mark ':').after fun _ =>
    locates_ty.after fun _ => locates_endOfLine.after fun _ => .check hpos (.pure trivial)

theorem locates_declsFrom (fuel : Nat) (p : ProgramSyntax) (h : ∀ f ∈ p.funcs, f.Placed P) :
    Locates P (TokenStream.Placed P) (declsFrom fuel p) fun q => ∀ f ∈ q.funcs, f.Placed P := by
  induction fuel generalizing p with
  | zero => exact .pure h
  | succ fuel ih =>
    unfold declsFrom
    refine locates_skipLines.after fun _ => locates_current.bind fun t ht => ?_
    split
    · exact .pure h
    · refine locates_word.after fun w => ?_
      split
      · exact (locates_global ht _).after fun g => ih _ h
      · split
        · refine (locates_func ht).bind fun f hf => ih _ fun f' hf' => ?_
          rcases List.mem_append.mp hf' with hf' | hf'
          · exact h f' hf'
          · rw [List.mem_singleton.mp hf']
            exact hf
        · exact .throw ht

theorem locates_program :
    Locates P (TokenStream.Placed P) program fun p => ∀ f ∈ p.funcs, f.Placed P :=
  locates_tokensLeft.after fun _ => locates_declsFrom _ _ (by simp)

end Parser

/-- **The parser stops at a token or where the tokens end, and keeps such places only.** -/
theorem ProgramSyntax.locates_parse (symbols : List Text.Symbol) :
    (∀ e, parse symbols = .error e → e.pos ∈ (TokenStream.ofSymbols symbols).places) ∧
      ∀ p, parse symbols = .ok p →
        ∀ f ∈ p.funcs, f.Placed (· ∈ (TokenStream.ofSymbols symbols).places) := by
  have hstart : (TokenStream.ofSymbols symbols).Placed (· ∈ (TokenStream.ofSymbols symbols).places) :=
    fun _ hpos => hpos
  exact ((Parser.locates_enter hstart).after fun _ => Parser.locates_program).run' hstart

/-! ### Names -/

section Resolver

/-- The program that is built has no places, so nothing need be known of it. -/
abbrev AnyProgram : Program → Prop := fun _ => True

theorem locates_resolveParams (f : FuncId) (names : Names) (params : List ParamSyntax)
    (h : ∀ a ∈ params, P a.pos) : Locates P AnyProgram (resolveParams f names params) fun _ => True := by
  induction params generalizing names with
  | nil => exact .pure trivial
  | cons a params ih =>
    unfold resolveParams
    exact .check (h a List.mem_cons_self) ((Locates.modifyGet fun _ _ => trivial).after fun _ =>
      ih _ fun a' ha' => h a' (List.mem_cons_of_mem a ha'))

theorem locates_resolveBlocks (f : FuncId) (blocks : List BlockSyntax) (h : ∀ b ∈ blocks, P b.pos) :
    Locates P AnyProgram (resolveBlocks f blocks) fun _ => True := by
  induction blocks with
  | nil => exact .pure trivial
  | cons b blocks ih =>
    exact .bind .get fun p _ => .check (h b List.mem_cons_self) <|
      (Locates.discard (.modifyGet fun _ _ => trivial)).after fun _ =>
        ih fun b' hb' => h b' (List.mem_cons_of_mem b hb')

theorem locates_resolveInstrs (b : BlockRef) (names : Names) (is : List InstrSyntax)
    (h : ∀ i ∈ is, i.Placed P) :
    Locates P AnyProgram (resolveInstrs b names is) fun r => ∀ e ∈ r.2, e.2.Placed P := by
  induction is generalizing names with
  | nil => exact .pure (by simp)
  | cons i is ih =>
    have hi := h i List.mem_cons_self
    refine .bind .get fun p _ => .check hi.pos <| .check hi.pos <|
      (Locates.modifyGet fun _ _ => trivial).after fun id => (Locates.modify fun _ _ => trivial).after fun _ =>
        (ih _ fun j hj => h j (List.mem_cons_of_mem i hj)).bind fun r hr => .pure ?_
    intro e he
    rcases List.mem_cons.mp he with rfl | he
    · exact hi
    · exact hr e he

theorem locates_resolveBodies (f : FuncId) (k : Nat) (names : Names) (blocks : List BlockSyntax)
    (h : ∀ b ∈ blocks, b.Placed P) :
    Locates P AnyProgram (resolveBodies f k names blocks) fun r => ∀ e ∈ r.2, e.2.Placed P := by
  induction blocks generalizing k names with
  | nil => exact .pure (by simp)
  | cons b blocks ih =>
    refine (locates_resolveInstrs _ names b.instrs (h b List.mem_cons_self).instrs).bind fun r hr =>
      (ih _ _ fun b' hb' => h b' (List.mem_cons_of_mem b hb')).bind fun r' hr' => .pure ?_
    intro e he
    rcases List.mem_append.mp he with he | he
    · exact hr e he
    · exact hr' e he

theorem locates_resolveOperand (names : Names) (i : InstrSyntax) (k : Nat) {a : Operand} (h : P a.pos) :
    Locates P AnyProgram (resolveOperand names i k a) fun _ => True := by
  unfold resolveOperand
  split
  · split
    · exact .pure trivial
    · exact .throw h
  · refine .bind .get fun p _ => ?_
    split
    · exact .pure trivial
    · exact .throw h
  · exact (Locates.modifyGet fun _ _ => trivial).after fun _ => .pure trivial

theorem locates_resolveOperands (names : Names) (id : InstrId) (i : InstrSyntax) (k : Nat)
    (args : List Operand) (h : ∀ a ∈ args, P a.pos) :
    Locates P AnyProgram (resolveOperands names id i k args) fun _ => True := by
  induction args generalizing k with
  | nil => exact .pure trivial
  | cons a args ih =>
    have ha := h a List.mem_cons_self
    refine (locates_resolveOperand names i k ha).after fun v => .bind .get fun p _ => ?_
    have hrest : Locates P AnyProgram (do return v :: (← resolveOperands names id i (k + 1) args))
        fun _ => True :=
      (ih _ fun a' ha' => h a' (List.mem_cons_of_mem a ha')).after fun _ => .pure trivial
    split
    · exact .check ha hrest
    · exact hrest

theorem locates_resolveTargets (f : FuncId) (targets : List Target) (h : ∀ t ∈ targets, P t.pos) :
    Locates P AnyProgram (resolveTargets f targets) fun _ => True := by
  induction targets with
  | nil => exact .pure trivial
  | cons t targets ih =>
    refine .bind .get fun p _ => ?_
    split
    · exact (ih fun t' ht' => h t' (List.mem_cons_of_mem t ht')).after fun _ => .pure trivial
    · exact .throw (h t List.mem_cons_self)

theorem locates_resolveUses (f : FuncId) (names : Names) (made : List (InstrId × InstrSyntax))
    (h : ∀ e ∈ made, e.2.Placed P) :
    Locates P AnyProgram (resolveUses f names made) fun _ => True := by
  induction made with
  | nil => exact .pure trivial
  | cons e made ih =>
    have he := h e List.mem_cons_self
    exact (locates_resolveOperands names e.1 e.2 0 _ he.args).after fun operands =>
      (locates_resolveTargets f _ he.targets).after fun targets =>
        (Locates.modify fun _ _ => trivial).after fun _ =>
          ih fun e' he' => h e' (List.mem_cons_of_mem e he')

theorem locates_resolveFunc {fn : FuncSyntax} (h : fn.Placed P) :
    Locates P AnyProgram (resolveFunc fn) fun _ => True :=
  .bind .get fun _ _ => .check h.pos <| (Locates.modifyGet fun _ _ => trivial).after fun f =>
    (locates_resolveParams f _ _ h.params).after fun names =>
      (locates_resolveBlocks f _ fun b hb => (h.blocks b hb).pos).after fun _ =>
        (locates_resolveBodies f 0 names _ h.blocks).bind fun r hr => locates_resolveUses f r.1 r.2 hr

/-- **The resolver complains about what it was given only.** -/
theorem locates_resolveFuncs (fns : List FuncSyntax) (h : ∀ fn ∈ fns, fn.Placed P) :
    Locates P AnyProgram (resolveFuncs fns) fun _ => True := by
  induction fns with
  | nil => exact .pure trivial
  | cons fn fns ih =>
    exact (locates_resolveFunc (h fn List.mem_cons_self)).after fun _ =>
      ih fun fn' hfn' => h fn' (List.mem_cons_of_mem fn hfn')

theorem ProgramSyntax.locates_resolve {name : String} {s : ProgramSyntax} (h : ∀ f ∈ s.funcs, f.Placed P)
    {e : SourceError} (he : s.resolve name = .error e) : P e.pos := by
  refine (locates_resolveFuncs s.funcs h (declareGlobals name s.globals) trivial).2 e ?_
  unfold resolve at he
  exact eq_error_of_map he

end Resolver

end Midend.Source

namespace Midend

open Source (ParseError ProgramSyntax SourceError TokenStream)

/-- **Every error names the file and stands in it**, at a token or where the tokens end. -/
theorem Program.parse_error_inside (name : String) (src : ByteArray) {e : ParseError}
    (h : Program.parse name src = .error e) :
    e.file = name ∧ e.pos.Inside src ∧
      e.pos ∈ (TokenStream.ofSymbols (Text.Symbol.ofBytes src)).places := by
  obtain ⟨hparse, hplaced⟩ := ProgramSyntax.locates_parse (Text.Symbol.ofBytes src)
  obtain ⟨e', rfl, hmem⟩ : ∃ e' : SourceError, { toSourceError := e', file := name } = e ∧
      e'.pos ∈ (TokenStream.ofSymbols (Text.Symbol.ofBytes src)).places := by
    unfold Program.parse at h
    cases hrun : ProgramSyntax.parse (Text.Symbol.ofBytes src) >>= fun s => s.resolve name with
    | ok p =>
      rw [hrun] at h
      cases h
    | error e' =>
      rw [hrun] at h
      refine ⟨e', Except.error.inj h, ?_⟩
      cases hread : ProgramSyntax.parse (Text.Symbol.ofBytes src) with
      | error e'' =>
        rw [hread] at hrun
        obtain rfl : e'' = e' := Except.error.inj hrun
        exact hparse e'' hread
      | ok s =>
        rw [hread] at hrun
        exact ProgramSyntax.locates_resolve (hplaced s hread) hrun
  exact ⟨rfl, (Source.isIn_of_mem_places hmem).inside, hmem⟩

/-- A file that ends where a parenthesis is expected, one column behind its seven characters. -/
def cutShort : ByteArray := "func @é".toUTF8

/-- A file with a character that is cut off by the end of the line. -/
def garbled : ByteArray := "é ".toUTF8.push 0xC3 ++ "\n\n".toUTF8

/-- A file that jumps to a label it does not have. -/
def dangling : ByteArray := "func @é() \x7b\nL:\n    br M\n\x7d\n".toUTF8

/-- An error of the parser, one of the scanner and one of the resolver. -/
theorem Program.parse_error_inside_each :
    (∃ e, Program.parse "m" cutShort = .error e ∧ e.pos = ⟨1, 8⟩ ∧ e.file = "m" ∧ e.pos.Inside cutShort) ∧
    (∃ e, Program.parse "m" garbled = .error e ∧ e.pos = ⟨1, 3⟩ ∧ e.file = "m" ∧ e.pos.Inside garbled) ∧
    ∃ e, Program.parse "m" dangling = .error e ∧ e.pos = ⟨3, 8⟩ ∧ e.file = "m" ∧
      e.pos.Inside dangling := by
  have hcut : Program.parse "m" cutShort =
      .error ⟨⟨⟨1, 8⟩, .expectedMark '(' .endOfFile⟩, "m"⟩ :=
    Source.eq_error_of_map (f := fun _ => ()) (by decide +kernel)
  have hgarbled : Program.parse "m" garbled =
      .error ⟨⟨⟨1, 3⟩, .unreadable .invalidUtf8⟩, "m"⟩ :=
    Source.eq_error_of_map (f := fun _ => ()) (by decide +kernel)
  have hdangling : Program.parse "m" dangling =
      .error ⟨⟨⟨3, 8⟩, .undefinedLabel "M"⟩, "m"⟩ :=
    Source.eq_error_of_map (f := fun _ => ()) (by decide +kernel)
  refine ⟨⟨_, hcut, rfl, ?_⟩, ⟨_, hgarbled, rfl, ?_⟩, ⟨_, hdangling, rfl, ?_⟩⟩
  · have h := parse_error_inside "m" cutShort hcut
    exact ⟨h.1, h.2.1⟩
  · have h := parse_error_inside "m" garbled hgarbled
    exact ⟨h.1, h.2.1⟩
  · have h := parse_error_inside "m" dangling hdangling
    exact ⟨h.1, h.2.1⟩

end Midend
