import Midend.Proofs.Source.ParserInstrs

/-!
# The parser reads programs

Bodies, functions and whole programs are read by loops that look at one token and then take a label,
an instruction or a declaration.  One round of a loop is told by an equation for each of these, and
by what a round that is accepted can have done.  The runs follow by induction, on the derivation in one
direction and on the rounds in the other.

## Main definitions

* `Continues`: what the tokens of a body make of the blocks before them.

## Main results

* `bodyFrom_label`, `bodyFrom_instr`, `yields_bodyFrom_succ`: one round in a body.
* `closes_body`: bodies.
* `func_eq_ok`, `global_eq_ok`: declarations.
* `ProgramSyntax.ofTokens_eq_ok_iff`: whole programs.
-/

namespace Midend.Source.Parser

open Grammar

variable {α β : Type} {s t : TokenStream}

/-! ### Lines -/

theorem enter_congr {next : TokenStream} : enter next s = enter next t := by
  cases next <;> rfl

/-- An end of line in front is passed over. -/
theorem skipLines_cons {nl : Token} (hnl : nl.IsMark '\n') :
    skipLines (.cons nl s) = skipLines s := by
  change enter (TokenStream.dropNewlines (.cons nl s)) _ = enter s.dropNewlines _
  rw [TokenStream.dropNewlines, if_pos hnl]
  exact enter_congr

theorem skipLines_run (hline : ¬s.current.IsMark '\n') (hs : s.Readable) :
    skipLines s = .ok ((), s) := by
  have hdrop : s.dropNewlines = s := by
    cases s with
    | cons tok rest => exact if_neg hline
    | eof pos => rfl
    | broken pos why => rfl
  change enter s.dropNewlines s = _
  rw [hdrop]
  exact enter_eq_ok.mpr ⟨hs, rfl⟩

theorem dropNewlines_spec (s : TokenStream) :
    ¬s.dropNewlines.current.IsMark '\n' ∧
      ∃ l : List Token, (∀ nl ∈ l, nl.IsMark '\n') ∧ s = l ++ s.dropNewlines := by
  induction s with
  | eof pos => exact ⟨nofun, [], by simp, rfl⟩
  | broken pos why => exact ⟨nofun, [], by simp, rfl⟩
  | cons tok rest ih =>
    unfold TokenStream.dropNewlines
    by_cases hline : tok.kind = .mark '\n'
    · rw [if_pos hline]
      obtain ⟨hrest, l, hl, heq⟩ := ih
      refine ⟨hrest, tok :: l, ?_, congrArg (TokenStream.cons tok) heq⟩
      rintro nl (_ | ⟨_, hmem⟩)
      · exact hline
      · exact hl nl hmem
    · rw [if_neg hline]
      exact ⟨hline, [], by simp, rfl⟩

/-! ### Bodies -/

variable {func : String} {fuel : Nat} {blocks : List BlockSyntax}

/-- An empty line. -/
theorem bodyFrom_newline {nl : Token} (hnl : nl.IsMark '\n') :
    bodyFrom func (fuel + 1) blocks (.cons nl s) = bodyFrom func (fuel + 1) blocks s := by
  unfold bodyFrom
  change Except.bind _ _ = Except.bind _ _
  rw [skipLines_cons hnl]

/-- The closing brace. -/
theorem bodyFrom_close {tok : Token} (htok : tok.IsMark '\x7d') :
    bodyFrom func (fuel + 1) blocks (.cons tok s) = .ok (blocks, .cons tok s) := by
  have hkind : tok.kind = .mark '\x7d' := htok
  unfold bodyFrom
  rw [bind_of_ok (skipLines_run (by simp [Token.IsMark, hkind]) TokenStream.readable_cons),
    bind_of_ok (current_run _), TokenStream.current_cons, hkind]
  rfl

/-- What follows an operation does not make it a label. -/
theorem exists_cons_of_completes {i j : InstrSyntax} {l : List Token} (h : Completes i l j) :
    ∃ tok l', l = tok :: l' ∧ ¬tok.IsMark ':' := by
  have hword : ∀ {tok : Token}, tok.kind = .word → ¬tok.IsMark ':' := by
    intro tok hkind hmark
    exact absurd (hkind.symm.trans hmark) (by decide)
  have hoperand : ∀ {l l' : List Token} {x : Operand}, IsOperand l x →
      ∃ tok l'', l ++ l' = tok :: l'' ∧ ¬tok.IsMark ':' := by
    intro l l' x hx
    cases hx with
    | value hm => exact ⟨_, _, rfl, fun hmark => absurd (hm.symm.trans hmark) (by decide)⟩
    | global hm => exact ⟨_, _, rfl, fun hmark => absurd (hm.symm.trans hmark) (by decide)⟩
    | literal hint => exact ⟨_, _, rfl, fun hmark => absurd (hint.symm.trans hmark) (by decide)⟩
    | negative hm => exact ⟨_, _, rfl, fun hmark => absurd (hm.symm.trans hmark) (by decide)⟩
  cases h with
  | arith _ ht => exact ⟨_, _, rfl, hword ht.1⟩
  | cmp _ ht => exact ⟨_, _, rfl, hword ht.1⟩
  | alloca _ ht => exact ⟨_, _, rfl, hword ht.1⟩
  | load _ ht => exact ⟨_, _, rfl, hword ht.1⟩
  | store _ ht => exact ⟨_, _, rfl, hword ht.1⟩
  | call _ ht => exact ⟨_, _, rfl, hword ht.1⟩
  | br _ hn =>
    refine ⟨_, _, rfl, ?_⟩
    rcases hn with hkind | hkind
    · exact hword hkind
    · exact fun hmark => absurd (hkind.symm.trans hmark) (by decide)
  | condbr _ hx => exact hoperand hx
  | retVoid _ ht => exact ⟨_, _, rfl, hword ht.1⟩
  | ret _ ht => exact ⟨_, _, rfl, hword ht.1⟩

/-- A label starts a block. -/
theorem bodyFrom_label {n colon : Token} (hn : n.IsName) (hcolon : colon.IsMark ':')
    (hs : (TokenStream.cons n (.cons colon s)).Proper) (hr : s.Readable) :
    bodyFrom func (fuel + 1) blocks (.cons n (.cons colon s)) =
      bodyFrom func fuel (blocks ++ [{ pos := n.pos, name := n.text }]) s := by
  have hname : name (.cons n (.cons colon s)) = .ok (n.text, .cons colon s) :=
    takes_name.run (l := [n]) ⟨n, hn, rfl, rfl⟩ hs TokenStream.readable_cons
  have hmark : decide ((TokenStream.cons colon s).current.kind = .mark ':') = true :=
    decide_eq_true hcolon
  rw [bodyFrom, bind_of_ok (skipLines_run ?_ TokenStream.readable_cons),
    bind_of_ok (current_run _), TokenStream.current_cons]
  · rcases hn with hkind | hkind
    all_goals
      rw [hkind]
      dsimp only
      rw [bind_of_ok hname, bind_of_ok (atMark_run _ _), if_pos hmark,
        bind_of_ok (advance_cons hr)]
  · rintro hnl
    rcases hn with hkind | hkind <;> exact absurd (hkind.symm.trans hnl) (by decide)

/-- An instruction is added to the last block. -/
theorem bodyFrom_instr {l : List Token} {i : InstrSyntax} (hi : IsInstr l i) (hblocks : blocks ≠ [])
    (hs : (l ++ t).Proper) (hr : t.Readable) (hend : t.LineEnds) :
    bodyFrom func (fuel + 1) blocks (l ++ t) = bodyFrom func fuel (addToLast blocks i) t := by
  have hsome : ¬blocks.isEmpty = true := by simpa using hblocks
  cases hi with
  | @plain l w op i hop hl =>
    have hkind := hop.1
    have hname : name (.cons w (l ++ t)) = .ok (w.text, l ++ t) :=
      takes_name.run (l := [w]) ⟨w, .inl hkind, rfl, rfl⟩ hs hr.append
    have hinstr : instr w.pos "" w.text (l ++ t) = .ok (i, t) :=
      (instr_eq_ok hs.2 hr.append).mpr ⟨hr, hend, op, l, hop.2, hl, absurd rfl, rfl⟩
    have hmark : ¬decide ((l ++ t).current.kind = .mark ':') = true := by
      obtain ⟨tok, l', rfl, htok⟩ := exists_cons_of_completes hl
      exact fun h => htok (of_decide_eq_true h)
    rw [bodyFrom, TokenStream.cons_append,
      bind_of_ok (skipLines_run ?_ TokenStream.readable_cons), bind_of_ok (current_run _),
      TokenStream.current_cons, hkind]
    · dsimp only
      rw [bind_of_ok hname, bind_of_ok (atMark_run _ _), if_neg hmark, if_neg hsome,
        bind_of_ok hinstr]
    · exact fun hnl => absurd (hkind.symm.trans hnl) (by decide)
  | @named l m n eq w op i hm hn heq hop hl hty =>
    have hinstr : instr m.pos n.text w.text (l ++ t) = .ok (i, t) :=
      (instr_eq_ok hs.2.2.2.2 hr.append).mpr ⟨hr, hend, op, l, hop.2, hl, fun _ => hty, rfl⟩
    have hname : name (.cons n (.cons eq (.cons w (l ++ t)))) = .ok (n.text, _) :=
      takes_name.run (l := [n]) ⟨n, hn, rfl, rfl⟩ hs.2 TokenStream.readable_cons
    have heq' : mark '=' (.cons eq (.cons w (l ++ t))) = .ok ((), _) :=
      (takes_mark '=').run (l := [eq]) ⟨eq, heq, rfl⟩ hs.2.2 TokenStream.readable_cons
    have hword : word (.cons w (l ++ t)) = .ok (w.text, l ++ t) :=
      takes_word.run (l := [w]) ⟨w, hop.1, rfl, rfl⟩ hs.2.2.2 hr.append
    simp only [TokenStream.cons_append]
    rw [bodyFrom, bind_of_ok (skipLines_run ?_ TokenStream.readable_cons),
      bind_of_ok (current_run _), TokenStream.current_cons, hm]
    · change (advance >>= _) _ = _
      rw [bind_of_ok (advance_cons TokenStream.readable_cons), bind_of_ok hname, bind_of_ok heq',
        bind_of_ok hword, if_neg hsome]
      exact bind_of_ok hinstr
    · exact fun hnl => absurd (hm.symm.trans hnl) (by decide)

/-- An integer is no operation. -/
theorem isOpcode_of_parse? {tok : Token} {op : Opcode} (hproper : tok.Proper) (hname : tok.IsName)
    (h : Opcode.parse? tok.text = some op) : tok.IsOpcode op := by
  have hmem : op ∈ Opcode.named := List.mem_of_find?_eq_some h
  have htext : op.text = tok.text := by simpa using List.find?_some h
  have hletter : (Opcode.named.all fun op =>
      op.text.toList.head?.all fun c => !Text.isAsciiDigit c) = true := by
    decide
  refine ⟨hname.resolve_right fun hint => ?_, h⟩
  rw [Token.Proper, hint] at hproper
  obtain ⟨d, ds, heq, hd⟩ := IsInteger.exists_eq hproper
  have hd' := List.all_eq_true.mp hletter op hmem
  simp [htext, heq, hd] at hd'

theorem proper_dropNewlines (hs : s.Proper) : s.dropNewlines.Proper := by
  obtain ⟨-, l, -, heq⟩ := dropNewlines_spec s
  rw [heq] at hs
  exact hs.of_append

/-- What one round of the loop can do. -/
theorem yields_bodyFrom_succ (hs : s.Proper) :
    Yields (bodyFrom func (fuel + 1) blocks) s fun bs u =>
      s.dropNewlines.Readable ∧
      ((s.dropNewlines.current.IsMark '\x7d' ∧ bs = blocks ∧ u = s.dropNewlines) ∨
        (∃ n colon t, n.IsName ∧ colon.IsMark ':' ∧ t.Readable ∧
          s.dropNewlines = .cons n (.cons colon t) ∧
          bodyFrom func fuel (blocks ++ [{ pos := n.pos, name := n.text }]) t = .ok (bs, u)) ∨
        (blocks ≠ [] ∧ ∃ l i t, IsInstr l i ∧ t.Readable ∧ t.LineEnds ∧
          s.dropNewlines = l ++ t ∧ bodyFrom func fuel (addToLast blocks i) t = .ok (bs, u))) := by
  rw [bodyFrom, yields_bind]
  intro u s' hskip
  obtain ⟨hr, rfl⟩ := enter_eq_ok.mp hskip
  have hs' := proper_dropNewlines hs
  generalize s.dropNewlines = s at hr hs'
  rw [yields_bind]
  rintro tok s' hcurrent
  cases hcurrent
  split
  · next hclose =>
    rw [yields_pure]
    exact ⟨hr, .inl ⟨hclose, rfl, rfl⟩⟩
  · -- An instruction with a result.
    next hm =>
    intro bs u hrun
    obtain ⟨m, s₁, rfl, hm⟩ := exists_cons_of_isMark hm
    obtain ⟨_, _, hadvance, hrun₁⟩ := bind_eq_ok.mp hrun
    obtain ⟨hr₁, rfl⟩ := advance_cons_eq_ok.mp hadvance
    obtain ⟨_, s₂, hname, hrun₂⟩ := bind_eq_ok.mp hrun₁
    obtain ⟨hr₂, -, ⟨n, hn, rfl, rfl⟩, rfl⟩ := (takes_name _ hs'.2 hr₁ _ _).mp hname
    obtain ⟨_, s₃, hmark, hrun₃⟩ := bind_eq_ok.mp hrun₂
    obtain ⟨hr₃, -, ⟨eq, heq, rfl⟩, rfl⟩ := (takes_mark '=' _ hs'.2.2 hr₂ _ _).mp hmark
    obtain ⟨_, s₄, hword, hrun₄⟩ := bind_eq_ok.mp hrun₃
    obtain ⟨hr₄, -, ⟨w, hw, rfl, rfl⟩, rfl⟩ := (takes_word _ hs'.2.2.2 hr₃ _ _).mp hword
    obtain ⟨hblocks, hrun₅⟩ := check_eq_ok.mp hrun₄
    obtain ⟨i, s₅, hinstr, hrest⟩ := bind_eq_ok.mp hrun₅
    obtain ⟨hr₅, hend, op, l, hop, hl, hty, rfl⟩ := (instr_eq_ok hs'.2.2.2.2 hr₄).mp hinstr
    have htext : n.text ≠ "" := hs'.2.1.text_ne hn
    refine ⟨hr, .inr (.inr ⟨by simpa using hblocks, _, i, s₅,
      .named hm hn heq ⟨hw, hop⟩ hl (hty htext), hr₅, hend, rfl, hrest⟩)⟩
  · exact yields_throw _
  · -- A label or an operation: only what comes behind the name tells which.
    next hclose hm heof =>
    intro bs u hrun
    obtain ⟨_, s₁, hname, hrun₁⟩ := bind_eq_ok.mp hrun
    obtain ⟨hr₁, -, ⟨n, hn, rfl, rfl⟩, rfl⟩ := (takes_name _ hs' hr _ _).mp hname
    rw [bind_of_ok (atMark_run ':' s₁)] at hrun₁
    by_cases hcolon : s₁.current.kind = .mark ':'
    · rw [if_pos (decide_eq_true hcolon)] at hrun₁
      obtain ⟨colon, s₂, rfl, hcolon⟩ := exists_cons_of_isMark hcolon
      obtain ⟨_, _, hadvance, hrest⟩ := bind_eq_ok.mp hrun₁
      obtain ⟨hr₂, rfl⟩ := advance_cons_eq_ok.mp hadvance
      exact ⟨hr, .inr (.inl ⟨n, colon, s₂, hn, hcolon, hr₂, rfl, hrest⟩)⟩
    · rw [if_neg fun h => hcolon (of_decide_eq_true h)] at hrun₁
      by_cases hblocks : blocks.isEmpty = true
      · rw [if_pos hblocks] at hrun₁
        exact (fail_eq_ok.mp hrun₁).elim
      · rw [if_neg hblocks] at hrun₁
        obtain ⟨i, s₂, hinstr, hrest⟩ := bind_eq_ok.mp hrun₁
        obtain ⟨hr₂, hend, op, l, hop, hl, -, rfl⟩ := (instr_eq_ok hs'.2 hr₁).mp hinstr
        exact ⟨hr, .inr (.inr ⟨by simpa using hblocks, _, i, s₂,
          .plain (isOpcode_of_parse? hs'.1 hn hop) hl, hr₂, hend, rfl, hrest⟩)⟩

/-- Behind the given blocks, the tokens make `bs` of them: more lines for the last block, and more
blocks. -/
def Continues (blocks : List BlockSyntax) (l : List Token) (bs : List BlockSyntax) : Prop :=
  (blocks = [] ∧ IsBody l bs) ∨ ∃ before b l₁ is l₂ more, blocks = before ++ [b] ∧
    IsLines l₁ is ∧ IsBody l₂ more ∧ l = l₁ ++ l₂ ∧
    bs = before ++ { b with instrs := b.instrs ++ is } :: more

namespace Continues

variable {l l' : List Token} {bs : List BlockSyntax}

theorem done (blocks : List BlockSyntax) : Continues blocks [] blocks := by
  rcases List.eq_nil_or_concat blocks with rfl | ⟨before, b, rfl⟩
  · exact .inl ⟨rfl, .done⟩
  · exact .inr ⟨before, b, [], [], [], [], by simp, .done, .done, rfl, by simp⟩

theorem empty {nl : Token} (hnl : nl.IsMark '\n') (h : Continues blocks l bs) :
    Continues blocks (nl :: l) bs := by
  rcases h with ⟨rfl, h⟩ | ⟨before, b, l₁, is, l₂, more, rfl, hlines, hmore, rfl, rfl⟩
  · exact .inl ⟨rfl, .empty hnl h⟩
  · exact .inr ⟨before, b, nl :: l₁, is, l₂, more, rfl, .empty hnl hlines, hmore, rfl, rfl⟩

theorem emptyLines {nls : List Token} (hnls : ∀ nl ∈ nls, nl.IsMark '\n')
    (h : Continues blocks l bs) : Continues blocks (nls ++ l) bs := by
  induction nls with
  | nil => exact h
  | cons nl nls ih =>
    exact .empty (hnls nl List.mem_cons_self) (ih fun x hx => hnls x (List.mem_cons_of_mem nl hx))

theorem label {n colon : Token} (hn : n.IsName) (hcolon : colon.IsMark ':')
    (h : Continues (blocks ++ [{ pos := n.pos, name := n.text }]) l bs) :
    Continues blocks (n :: colon :: l) bs := by
  rcases h with ⟨hnil, -⟩ | ⟨before, b, l₁, is, l₂, more, heq, hlines, hmore, rfl, rfl⟩
  · simp at hnil
  · obtain ⟨rfl, rfl⟩ : blocks = before ∧ _ = b := by simpa using heq
    have hbody := IsBody.block hn hcolon hlines hmore
    rcases List.eq_nil_or_concat blocks with rfl | ⟨before, b, rfl⟩
    · exact .inl ⟨rfl, by simpa using hbody⟩
    · exact .inr ⟨before, b, [], [], _, _, by simp, .done, hbody, rfl, by simp⟩

theorem addToLast_concat (before : List BlockSyntax) (b : BlockSyntax) (i : InstrSyntax) :
    addToLast (before ++ [b]) i = before ++ [{ b with instrs := b.instrs ++ [i] }] := by
  simp [addToLast]

theorem instr {i : InstrSyntax} {nl : Token} (hblocks : blocks ≠ []) (hi : IsInstr l i)
    (hnl : nl.IsMark '\n') (h : Continues (addToLast blocks i) l' bs) :
    Continues blocks (l ++ nl :: l') bs := by
  rcases List.eq_nil_or_concat blocks with rfl | ⟨before, b, rfl⟩
  · exact absurd rfl hblocks
  · rw [List.concat_eq_append, addToLast_concat] at h
    rcases h with ⟨hnil, -⟩ | ⟨before', b', l₁, is, l₂, more, heq, hlines, hmore, rfl, rfl⟩
    · simp at hnil
    · obtain ⟨rfl, rfl⟩ : before = before' ∧ _ = b' := by simpa using heq
      exact .inr ⟨before, b, l ++ nl :: l₁, i :: is, l₂, more, by simp, .instr hi hnl hlines, hmore,
        by simp, by simp⟩

end Continues

/-- Where the line ends and a proper token follows, it is an end of line. -/
theorem exists_newline {tok : Token} (hs : (TokenStream.cons tok s).Proper)
    (h : (TokenStream.cons tok s).LineEnds) : tok.IsMark '\n' := by
  refine h.resolve_right fun heof => ?_
  have hproper := hs.1
  rw [Token.Proper, show tok.kind = .eof from heof] at hproper
  exact hproper

theorem bodyFrom_sound (fuel : Nat) :
    ∀ blocks s, s.Proper → ∀ bs t, bodyFrom func fuel blocks s = .ok (bs, t) →
      t.current.IsMark '\x7d' → ∃ l, Continues blocks l bs ∧ s = l ++ t := by
  induction fuel with
  | zero =>
    intro blocks s hs bs t hrun _
    obtain ⟨rfl, rfl⟩ := pure_eq_ok.mp hrun
    exact ⟨[], .done blocks, rfl⟩
  | succ fuel ih =>
    intro blocks s hs bs t hrun hclose
    obtain ⟨-, hround⟩ := yields_bodyFrom_succ hs bs t hrun
    obtain ⟨-, nls, hnls, heq⟩ := dropNewlines_spec s
    have hs' : s.dropNewlines.Proper := by
      rw [heq] at hs
      exact hs.of_append
    -- It remains to look behind the empty lines.
    suffices h : ∃ l, Continues blocks l bs ∧ s.dropNewlines = l ++ t by
      obtain ⟨l, hl, heq'⟩ := h
      exact ⟨nls ++ l, .emptyLines hnls hl, by rw [TokenStream.append_append, ← heq', ← heq]⟩
    generalize s.dropNewlines = s at hround hs'
    rcases hround with ⟨-, rfl, rfl⟩ | ⟨n, colon, u, hn, hcolon, hu, rfl, hrest⟩ |
      ⟨hblocks, l, i, u, hi, hu, hend, rfl, hrest⟩
    · exact ⟨[], .done _, rfl⟩
    · obtain ⟨l, hl, rfl⟩ := ih _ u hs'.2.2 bs t hrest hclose
      exact ⟨n :: colon :: l, .label hn hcolon hl, rfl⟩
    · have hsu := hs'.of_append
      cases u with
      | broken pos why => exact absurd rfl (hu pos why)
      | eof pos =>
        obtain ⟨tok, rest, rfl, -⟩ := exists_cons_of_isMark hclose
        obtain ⟨l', -, heq'⟩ := ih _ _ hsu bs _ hrest hclose
        cases l' <;> cases heq'
      | cons nl u =>
        have hnl : nl.IsMark '\n' := exists_newline hsu hend
        -- The next round passes over the end of the line, so there is a next round.
        cases fuel with
        | zero =>
          obtain ⟨rfl, rfl⟩ := pure_eq_ok.mp hrest
          exact absurd (hclose.symm.trans hnl) (by decide)
        | succ fuel =>
          rw [bodyFrom_newline hnl] at hrest
          obtain ⟨l', hl', rfl⟩ := ih _ u hsu.2 bs t hrest hclose
          exact ⟨l ++ nl :: l', .instr hblocks hi hnl hl', by simp⟩

section Complete

variable {r : Except SourceError (List BlockSyntax × TokenStream) → Prop}

/-- Lines are added to the last block.  What then holds of the rest of the run holds of all of it. -/
theorem bodyFrom_lines {l : List Token} {is : List InstrSyntax} (hl : IsLines l is)
    {before : List BlockSyntax} :
    ∀ b, (l ++ s).Proper →
      (∀ fuel, s.length < fuel →
        r (bodyFrom func fuel (before ++ [{ b with instrs := b.instrs ++ is }]) s)) →
      ∀ fuel, (l ++ s).length < fuel → r (bodyFrom func fuel (before ++ [b]) (l ++ s)) := by
  induction hl with
  | done =>
    intro b _ hrest fuel hfuel
    simpa using hrest fuel hfuel
  | @empty l nl is hnl hl ih =>
    intro b hs hrest fuel hfuel
    rw [TokenStream.cons_append, TokenStream.length] at hfuel
    obtain ⟨fuel, rfl⟩ := Nat.exists_eq_add_one.mpr (Nat.zero_lt_of_lt hfuel)
    rw [TokenStream.cons_append, bodyFrom_newline hnl]
    exact ih b hs.2 hrest _ (by omega)
  | @instr l l' nl i is hi hnl hl' ih =>
    intro b hs hrest fuel hfuel
    simp only [TokenStream.append_append, TokenStream.cons_append, TokenStream.length_append,
      TokenStream.length] at hs hfuel ⊢
    have hline : (TokenStream.cons nl (l' ++ s)).LineEnds := .inl hnl
    obtain ⟨fuel, rfl⟩ : ∃ k, fuel = k + 2 := ⟨fuel - 2, by omega⟩
    rw [bodyFrom_instr hi (by simp) hs TokenStream.readable_cons hline,
      Continues.addToLast_concat, bodyFrom_newline hnl]
    refine ih _ hs.of_append.2 (fun fuel hfuel => ?_) _ ?_
    · simpa using hrest fuel hfuel
    · rw [TokenStream.length_append]
      omega

/-- Blocks are added.  What then holds of the rest of the run holds of all of it. -/
theorem bodyFrom_body {l : List Token} {bs : List BlockSyntax} (hl : IsBody l bs) (hr : s.Readable) :
    ∀ blocks, (l ++ s).Proper →
      (∀ fuel, s.length < fuel → r (bodyFrom func fuel (blocks ++ bs) s)) →
      ∀ fuel, (l ++ s).length < fuel → r (bodyFrom func fuel blocks (l ++ s)) := by
  induction hl with
  | done =>
    intro blocks _ hrest fuel hfuel
    simpa using hrest fuel hfuel
  | @empty l nl bs hnl hl ih =>
    intro blocks hs hrest fuel hfuel
    rw [TokenStream.cons_append, TokenStream.length] at hfuel
    obtain ⟨fuel, rfl⟩ := Nat.exists_eq_add_one.mpr (Nat.zero_lt_of_lt hfuel)
    rw [TokenStream.cons_append, bodyFrom_newline hnl]
    exact ih blocks hs.2 hrest _ (by omega)
  | @block l l' n colon is bs hn hcolon hlines hl' ih =>
    intro blocks hs hrest fuel hfuel
    simp only [TokenStream.cons_append, TokenStream.append_append, TokenStream.length] at hs hfuel ⊢
    obtain ⟨fuel, rfl⟩ : ∃ k, fuel = k + 1 := ⟨fuel - 1, by omega⟩
    rw [bodyFrom_label hn hcolon hs hr.append.append]
    refine bodyFrom_lines hlines _ hs.2.2 (fun fuel hfuel => ?_) fuel (by omega)
    refine ih _ hs.2.2.of_append (fun fuel hfuel => ?_) fuel hfuel
    simpa using hrest fuel hfuel

end Complete

/-- **A body is read up to the closing brace.** -/
theorem closes_body (func : String) : Closes (do bodyFrom func ((← tokensLeft) + 1) []) IsBody '\x7d' where
  sound s hs _ bs t hrun hclose := by
    rw [bind_of_ok (tokensLeft_run s)] at hrun
    obtain ⟨l, hl, rfl⟩ := bodyFrom_sound _ _ s hs bs t hrun hclose
    obtain ⟨tok, rest, rfl, -⟩ := exists_cons_of_isMark hclose
    refine ⟨TokenStream.readable_cons, l, ?_, rfl⟩
    rcases hl with ⟨-, hl⟩ | ⟨before, b, _, _, _, _, hnil, -⟩
    · exact hl
    · simp at hnil
  complete l bs tok t hl htok hs := by
    rw [bind_of_ok (tokensLeft_run _)]
    refine bodyFrom_body (r := (· = .ok (bs, .cons tok t))) hl TokenStream.readable_cons [] hs
      (fun fuel hfuel => ?_) _ (Nat.lt_succ_self _)
    obtain ⟨fuel, rfl⟩ := Nat.exists_eq_add_one.mpr (Nat.zero_lt_of_lt hfuel)
    exact bodyFrom_close htok

/-! ### Functions and global variables -/

/-- Takes the type of the result of a function, if there is one. -/
def result : Parser Ty := do
  if ← atMark ':' then do
    advance
    ty
  else pure Ty.void

theorem closes_result : Closes result IsResult '\x7b' where
  sound s hs hr ret t hrun _ := by
    unfold result at hrun
    rw [bind_of_ok (atMark_run ':' s)] at hrun
    by_cases hcolon : s.current.kind = .mark ':'
    · rw [if_pos (decide_eq_true hcolon)] at hrun
      obtain ⟨colon, s, rfl, hcolon⟩ := exists_cons_of_isMark hcolon
      obtain ⟨_, _, hadvance, hty⟩ := bind_eq_ok.mp hrun
      obtain ⟨hr', rfl⟩ := advance_cons_eq_ok.mp hadvance
      obtain ⟨ht, -, ⟨tok, htok, rfl⟩, rfl⟩ := (takes_ty _ hs.2 hr' _ _).mp hty
      exact ⟨ht, [colon, tok], .some hcolon htok, rfl⟩
    · rw [if_neg fun h => hcolon (of_decide_eq_true h)] at hrun
      obtain ⟨rfl, rfl⟩ := pure_eq_ok.mp hrun
      exact ⟨hr, [], .none, rfl⟩
  complete l ret tok t hl htok hs := by
    unfold result
    cases hl with
    | none =>
      have hcolon : ¬decide ((TokenStream.cons tok t).current.kind = .mark ':') = true := by
        intro h
        exact absurd (htok.symm.trans (of_decide_eq_true h)) (by decide)
      rw [TokenStream.nil_append, bind_of_ok (atMark_run ':' _), if_neg hcolon]
      rfl
    | @some colon ty _ hcolon hty =>
      have hmark : decide ((TokenStream.cons colon (.cons ty (.cons tok t))).current.kind =
          .mark ':') = true := decide_eq_true hcolon
      rw [TokenStream.cons_append, TokenStream.cons_append, TokenStream.nil_append] at hs ⊢
      rw [bind_of_ok (atMark_run ':' _), if_pos hmark,
        bind_of_ok (advance_cons TokenStream.readable_cons)]
      exact takes_ty.run (l := [ty]) ⟨ty, hty, rfl⟩ hs.2 TokenStream.readable_cons

/-- Takes a function behind the word that starts it, up to the closing brace. -/
def funcRest (pos : Position) : Parser FuncSyntax := do
  mark '@'
  let name ← name
  mark '('
  let params ← paramsFrom ((← tokensLeft) + 1)
  mark ')'
  let ret ← result
  mark '\x7b'
  let blocks ← bodyFrom name ((← tokensLeft) + 1) []
  mark '\x7d'
  pure { pos := pos, name := name, ret := ret, params := params, blocks := blocks }

theorem func_eq (pos : Position) :
    Parser.func pos = (do let f ← funcRest pos; endOfLine; pure f) := by
  unfold Parser.func funcRest result
  simp only [bind_assoc, pure_bind]
  refine bind_congr fun _ => bind_congr fun name => bind_congr fun _ => bind_congr fun n =>
    bind_congr fun params => bind_congr fun _ => bind_congr fun colon => ?_
  cases colon with
  | true => simp only [if_true, bind_assoc]
  | false => simp only [Bool.false_eq_true, if_false, pure_bind]

theorem takes_funcRest {w : Token} (hw : w.IsWord "func") :
    Takes (funcRest w.pos) fun l f => IsFunc (w :: l) f := by
  have hbody := fun name ret params => (closes_body name).bind fun blocks =>
    Takes.pure (FuncSyntax.mk w.pos name ret params blocks)
  simp only [bind_assoc] at hbody
  refine ((takes_mark '@').bind fun _ => takes_name.bind fun name => (takes_mark '(').bind fun _ =>
    takes_params fun params => closes_result.bind fun ret => hbody name ret params).congr
    fun l f => ⟨?_, ?_⟩
  · rintro ⟨-, -, -, ⟨m, hm, rfl⟩, ⟨-, -, -, ⟨n, hn, rfl, rfl⟩, ⟨-, -, -, ⟨opening, hopen, rfl⟩,
      ⟨ps, params, closing, -, hparams, hclose, ⟨r, ret, left, -, hret, hleft,
      ⟨body, blocks, right, -, hblocks, hright, ⟨rfl, rfl⟩, rfl⟩, rfl⟩, rfl⟩, rfl⟩, rfl⟩, rfl⟩
    exact .mk hw hm hn hopen hparams hclose hret hleft hblocks hright
  · rintro ⟨-, hm, hn, hopen, hparams, hclose, hret, hleft, hblocks, hright⟩
    exact ⟨_, (), _, ⟨_, hm, rfl⟩, ⟨_, _, _, ⟨_, hn, rfl, rfl⟩, ⟨_, (), _, ⟨_, hopen, rfl⟩,
      ⟨_, _, _, _, hparams, hclose, ⟨_, _, _, _, hret, hleft,
      ⟨_, _, _, [], hblocks, hright, ⟨rfl, rfl⟩, rfl⟩, rfl⟩, rfl⟩, rfl⟩, rfl⟩, rfl⟩

/-- What a function takes behind the word that starts it.  The line ends there. -/
theorem func_eq_ok {w : Token} {f : FuncSyntax} (hw : w.IsWord "func") (hs : s.Proper)
    (hr : s.Readable) :
    Parser.func w.pos s = .ok (f, t) ↔
      t.Readable ∧ t.LineEnds ∧ ∃ l, IsFunc (w :: l) f ∧ s = l ++ t := by
  rw [func_eq, bind_eq_ok]
  constructor
  · rintro ⟨f', s', hf, hrun⟩
    obtain ⟨hr', l, hl, rfl⟩ := (takes_funcRest hw s hs hr f' s').mp hf
    obtain ⟨_, _, hline, hpure⟩ := bind_eq_ok.mp hrun
    obtain ⟨hend, rfl⟩ := endOfLine_eq_ok.mp hline
    obtain ⟨rfl, rfl⟩ := pure_eq_ok.mp hpure
    exact ⟨hr', hend, l, hl, rfl⟩
  · rintro ⟨ht, hend, l, hl, rfl⟩
    refine ⟨f, t, (takes_funcRest hw).run hl hs ht, ?_⟩
    exact bind_eq_ok.mpr ⟨(), t, endOfLine_eq_ok.mpr ⟨hend, rfl⟩, rfl⟩

/-- Takes a global variable behind the word that starts it. -/
def globalRest : Parser GlobalSyntax := do
  mark '@'
  let name ← name
  mark ':'
  let elem ← ty
  pure ⟨name, elem⟩

theorem takes_globalRest {w : Token} (hw : w.IsWord "global") :
    Takes globalRest fun l g => IsGlobal (w :: l) g := by
  refine ((takes_mark '@').bind fun _ => takes_name.bind fun name => (takes_mark ':').bind fun _ =>
    takes_ty.bind fun elem => .pure (GlobalSyntax.mk name elem)).congr fun l g => ⟨?_, ?_⟩
  · rintro ⟨-, -, -, ⟨m, hm, rfl⟩, ⟨-, -, -, ⟨n, hn, rfl, rfl⟩, ⟨-, -, -, ⟨colon, hcolon, rfl⟩,
      ⟨-, ty, -, ⟨t, ht, rfl⟩, ⟨rfl, rfl⟩, rfl⟩, rfl⟩, rfl⟩, rfl⟩
    exact .mk hw hm hn hcolon ht
  · rintro ⟨-, hm, hn, hcolon, ht⟩
    exact ⟨_, (), _, ⟨_, hm, rfl⟩, ⟨_, _, _, ⟨_, hn, rfl, rfl⟩, ⟨_, (), _, ⟨_, hcolon, rfl⟩,
      ⟨_, _, [], ⟨_, ht, rfl⟩, ⟨rfl, rfl⟩, rfl⟩, rfl⟩, rfl⟩, rfl⟩

/-- What a global variable takes behind the word that starts it.  Its name is new. -/
theorem global_eq_ok {w : Token} {pos : Position} {before : List GlobalSyntax} {g : GlobalSyntax}
    (hw : w.IsWord "global") (hs : s.Proper) (hr : s.Readable) :
    Parser.global pos before s = .ok (g, t) ↔ t.Readable ∧ t.LineEnds ∧
      g.name ∉ before.map (·.name) ∧ ∃ l, IsGlobal (w :: l) g ∧ s = l ++ t := by
  have hglobal : Parser.global pos before = (do
      let g ← globalRest
      endOfLine
      if before.any (·.name = g.name) then fail pos (.duplicatedGlobal g.name)
      pure g) := by
    unfold Parser.global globalRest
    simp only [bind_assoc, pure_bind]
  have hfresh : ∀ g : GlobalSyntax,
      ¬before.any (·.name = g.name) = true ↔ g.name ∉ before.map (·.name) := by
    intro g
    simp only [List.any_eq_true, decide_eq_true_eq, List.mem_map]
  rw [hglobal, bind_eq_ok]
  constructor
  · rintro ⟨g', s', hg, hrun⟩
    obtain ⟨hr', l, hl, rfl⟩ := (takes_globalRest hw s hs hr g' s').mp hg
    obtain ⟨_, _, hline, hcheck⟩ := bind_eq_ok.mp hrun
    obtain ⟨hend, rfl⟩ := endOfLine_eq_ok.mp hline
    obtain ⟨hnew, hpure⟩ := check_eq_ok.mp hcheck
    obtain ⟨rfl, rfl⟩ := pure_eq_ok.mp hpure
    exact ⟨hr', hend, (hfresh _).mp hnew, l, hl, rfl⟩
  · rintro ⟨ht, hend, hnew, l, hl, rfl⟩
    refine ⟨g, t, (takes_globalRest hw).run hl hs ht, ?_⟩
    exact bind_eq_ok.mpr ⟨(), t, endOfLine_eq_ok.mpr ⟨hend, rfl⟩,
      check_eq_ok.mpr ⟨(hfresh g).mpr hnew, rfl⟩⟩

/-! ### Programs -/

section Decls

variable {p : ProgramSyntax} {l : List Token}

theorem declsFrom_newline {nl : Token} (hnl : nl.IsMark '\n') :
    declsFrom (fuel + 1) p (.cons nl s) = declsFrom (fuel + 1) p s := by
  unfold declsFrom
  change Except.bind _ _ = Except.bind _ _
  rw [skipLines_cons hnl]

theorem declsFrom_eof (pos : Position) :
    declsFrom (fuel + 1) p (.eof pos) = .ok (p, .eof pos) := by
  have hline : ¬(TokenStream.eof pos).current.IsMark '\n' := nofun
  rw [declsFrom, bind_of_ok (skipLines_run hline (TokenStream.readable_eof pos)), bind_of_ok (current_run _)]
  rfl

/-- The word a declaration starts with. -/
theorem declsFrom_word {w : Token} (hw : w.kind = .word)
    (hs : (TokenStream.cons w s).Proper) (hr : s.Readable) :
    declsFrom (fuel + 1) p (.cons w s) = (if w.text = "global" then do
        let g ← Parser.global w.pos p.globals
        declsFrom fuel { p with globals := p.globals ++ [g] }
      else if w.text = "func" then do
        let f ← Parser.func w.pos
        declsFrom fuel { p with funcs := p.funcs ++ [f] }
      else fail w.pos (.unknownDeclaration w.text)) s := by
  have hword : word (.cons w s) = .ok (w.text, s) :=
    takes_word.run (l := [w]) ⟨w, hw, rfl, rfl⟩ hs hr
  have hline : ¬(TokenStream.cons w s).current.IsMark '\n' :=
    fun hnl => absurd (hw.symm.trans hnl) (by decide)
  have heof : ¬(TokenStream.cons w s).current.kind = .eof :=
    fun heof => absurd (hw.symm.trans heof) (by decide)
  rw [declsFrom, bind_of_ok (skipLines_run hline TokenStream.readable_cons),
    bind_of_ok (current_run _), if_neg heof, bind_of_ok hword, TokenStream.current_cons]

theorem exists_cons_of_isGlobal {g : GlobalSyntax} (h : IsGlobal l g) :
    ∃ w l', l = w :: l' ∧ w.IsWord "global" := by
  cases h with
  | mk hw => exact ⟨_, _, rfl, hw⟩

theorem exists_cons_of_isFunc {f : FuncSyntax} (h : IsFunc l f) :
    ∃ w l', l = w :: l' ∧ w.IsWord "func" := by
  cases h with
  | mk hw => exact ⟨_, _, rfl, hw⟩

theorem declsFrom_global {g : GlobalSyntax} (hl : IsGlobal l g)
    (hnew : g.name ∉ p.globals.map (·.name)) (hs : (l ++ t).Proper) (hr : t.Readable)
    (hend : t.LineEnds) :
    declsFrom (fuel + 1) p (l ++ t) =
      declsFrom fuel { p with globals := p.globals ++ [g] } t := by
  obtain ⟨w, l', rfl, hw⟩ := exists_cons_of_isGlobal hl
  rw [TokenStream.cons_append] at hs ⊢
  rw [declsFrom_word hw.1 hs hr.append, if_pos hw.2]
  exact bind_of_ok ((global_eq_ok hw hs.2 hr.append).mpr ⟨hr, hend, hnew, l', hl, rfl⟩)

theorem declsFrom_func {f : FuncSyntax} (hl : IsFunc l f) (hs : (l ++ t).Proper) (hr : t.Readable)
    (hend : t.LineEnds) :
    declsFrom (fuel + 1) p (l ++ t) = declsFrom fuel { p with funcs := p.funcs ++ [f] } t := by
  obtain ⟨w, l', rfl, hw⟩ := exists_cons_of_isFunc hl
  rw [TokenStream.cons_append] at hs ⊢
  rw [declsFrom_word hw.1 hs hr.append, if_neg (by simp [hw.2]), if_pos hw.2]
  exact bind_of_ok ((func_eq_ok hw hs.2 hr.append).mpr ⟨hr, hend, l', hl, rfl⟩)

/-- What one round of the loop can do. -/
theorem yields_declsFrom_succ (hs : s.Proper) :
    Yields (declsFrom (fuel + 1) p) s fun q u =>
      s.dropNewlines.Readable ∧
      ((s.dropNewlines.current.kind = .eof ∧ q = p ∧ u = s.dropNewlines) ∨
        (∃ l g t, IsGlobal l g ∧ g.name ∉ p.globals.map (·.name) ∧ t.Readable ∧ t.LineEnds ∧
          s.dropNewlines = l ++ t ∧
          declsFrom fuel { p with globals := p.globals ++ [g] } t = .ok (q, u)) ∨
        (∃ l f t, IsFunc l f ∧ t.Readable ∧ t.LineEnds ∧ s.dropNewlines = l ++ t ∧
          declsFrom fuel { p with funcs := p.funcs ++ [f] } t = .ok (q, u))) := by
  rw [declsFrom, yields_bind]
  intro u s' hskip
  obtain ⟨hr, rfl⟩ := enter_eq_ok.mp hskip
  have hs' := proper_dropNewlines hs
  generalize s.dropNewlines = s at hr hs'
  rw [yields_bind]
  rintro tok s' hcurrent
  cases hcurrent
  split
  · next heof =>
    rw [yields_pure]
    exact ⟨hr, .inl ⟨heof, rfl, rfl⟩⟩
  · intro q u hrun
    obtain ⟨_, s₁, hword, hrun₁⟩ := bind_eq_ok.mp hrun
    obtain ⟨hr₁, -, ⟨w, hw, rfl, rfl⟩, rfl⟩ := (takes_word _ hs' hr _ _).mp hword
    by_cases hglobal : w.text = "global"
    · rw [if_pos hglobal] at hrun₁
      obtain ⟨g, t, hg, hrest⟩ := bind_eq_ok.mp hrun₁
      obtain ⟨ht, hend, hnew, l, hl, rfl⟩ := (global_eq_ok ⟨hw, hglobal⟩ hs'.2 hr₁).mp hg
      exact ⟨hr, .inr (.inl ⟨w :: l, g, t, hl, hnew, ht, hend, rfl, hrest⟩)⟩
    · rw [if_neg hglobal] at hrun₁
      by_cases hfunc : w.text = "func"
      · rw [if_pos hfunc] at hrun₁
        obtain ⟨f, t, hf, hrest⟩ := bind_eq_ok.mp hrun₁
        obtain ⟨ht, hend, l, hl, rfl⟩ := (func_eq_ok ⟨hw, hfunc⟩ hs'.2 hr₁).mp hf
        exact ⟨hr, .inr (.inr ⟨w :: l, f, t, hl, ht, hend, rfl, hrest⟩)⟩
      · rw [if_neg hfunc] at hrun₁
        exact (fail_eq_ok.mp hrun₁).elim

theorem isProgram_emptyLines {nls : List Token} (hnls : ∀ nl ∈ nls, nl.IsMark '\n')
    (h : IsProgram l p) : IsProgram (nls ++ l) p := by
  induction nls with
  | nil => exact h
  | cons nl nls ih =>
    exact .empty (hnls nl List.mem_cons_self) (ih fun x hx => hnls x (List.mem_cons_of_mem nl hx))

/-- The ends of lines of a text that can be read to its end. -/
theorem lineEnds_iff {pos : Position} (hs : (l ++ TokenStream.eof pos).Proper) :
    (l ++ TokenStream.eof pos).LineEnds ↔ LineEnds l := by
  cases l with
  | nil => exact iff_of_true (.inr rfl) nofun
  | cons tok l =>
    constructor
    · intro h t ht
      obtain rfl : tok = t := by simpa using ht
      exact exists_newline hs h
    · exact fun h => .inl (h tok rfl)

theorem declsFrom_sound (fuel : Nat) :
    ∀ p s, s.Proper → s.length < fuel → (p.globals.map (·.name)).Nodup → ∀ q t,
      declsFrom fuel p s = .ok (q, t) → ∃ l pos q', s = l ++ TokenStream.eof pos ∧ IsProgram l q' ∧
        q = ⟨p.globals ++ q'.globals, p.funcs ++ q'.funcs⟩ ∧ (q.globals.map (·.name)).Nodup := by
  induction fuel with
  | zero => exact fun _ _ _ hfuel => absurd hfuel (Nat.not_lt_zero _)
  | succ fuel ih =>
    intro p s hs hfuel hnodup q t hrun
    obtain ⟨hr, hround⟩ := yields_declsFrom_succ hs q t hrun
    obtain ⟨-, nls, hnls, heq⟩ := dropNewlines_spec s
    have hs' : s.dropNewlines.Proper := by
      rw [heq] at hs
      exact hs.of_append
    have hlength : s.dropNewlines.length < fuel + 1 := by
      have := congrArg TokenStream.length heq
      rw [TokenStream.length_append] at this
      omega
    -- It remains to look behind the empty lines.
    suffices h : ∃ l pos q', s.dropNewlines = l ++ TokenStream.eof pos ∧ IsProgram l q' ∧
        q = ⟨p.globals ++ q'.globals, p.funcs ++ q'.funcs⟩ ∧ (q.globals.map (·.name)).Nodup by
      obtain ⟨l, pos, q', heq', hl, hq⟩ := h
      exact ⟨nls ++ l, pos, q', by rw [TokenStream.append_append, ← heq', ← heq],
        isProgram_emptyLines hnls hl, hq⟩
    generalize s.dropNewlines = s at hr hround hs' hlength
    rcases hround with ⟨heof, rfl, rfl⟩ | ⟨l, g, u, hl, hnew, hu, hend, rfl, hrest⟩ |
      ⟨l, f, u, hl, hu, hend, rfl, hrest⟩
    · cases t with
      | broken pos why => exact absurd rfl (hr pos why)
      | eof pos => exact ⟨[], pos, {}, rfl, .done, by simp, hnodup⟩
      | cons tok t =>
        have hproper := hs'.1
        rw [Token.Proper, show tok.kind = .eof from heof] at hproper
        exact hproper.elim
    · obtain ⟨w, l', rfl, -⟩ := exists_cons_of_isGlobal hl
      rw [TokenStream.length_append, List.length_cons] at hlength
      have hnodup' : ((p.globals ++ [g]).map (·.name)).Nodup := by
        rw [List.map_append, List.nodup_append]
        exact ⟨hnodup, by simp, by simpa using fun a ha => fun h => hnew (List.mem_map.mpr ⟨a, ha, h⟩)⟩
      obtain ⟨l, pos, q', rfl, hprog, rfl, hq⟩ :=
        ih _ u hs'.of_append (by omega) hnodup' q t hrest
      exact ⟨_, pos, _, (TokenStream.append_append).symm,
        .global hl ((lineEnds_iff hs'.of_append).mp hend) hprog, by simp, hq⟩
    · obtain ⟨w, l', rfl, -⟩ := exists_cons_of_isFunc hl
      rw [TokenStream.length_append, List.length_cons] at hlength
      obtain ⟨l, pos, q', rfl, hprog, rfl, hq⟩ :=
        ih { p with funcs := p.funcs ++ [f] } u hs'.of_append (by omega) hnodup q t hrest
      exact ⟨_, pos, _, (TokenStream.append_append).symm,
        .func hl ((lineEnds_iff hs'.of_append).mp hend) hprog, by simp, hq⟩

theorem declsFrom_complete {pos : Position} {q : ProgramSyntax} (hl : IsProgram l q) :
    ∀ p fuel, (l ++ TokenStream.eof pos).Proper → (l ++ TokenStream.eof pos).length < fuel →
      ((p.globals ++ q.globals).map (·.name)).Nodup →
      declsFrom fuel p (l ++ TokenStream.eof pos) =
        .ok (⟨p.globals ++ q.globals, p.funcs ++ q.funcs⟩, .eof pos) := by
  induction hl with
  | done =>
    rintro p (_ | fuel) hs hfuel hnodup
    · omega
    · simpa using declsFrom_eof pos
  | @empty l nl q hnl hl ih =>
    rintro p (_ | fuel) hs hfuel hnodup
    · omega
    · rw [TokenStream.cons_append, declsFrom_newline hnl]
      rw [TokenStream.cons_append, TokenStream.length] at hfuel
      exact ih p (fuel + 1) hs.2 (by omega) hnodup
  | @global d l g q hg hend hl ih =>
    rintro p (_ | fuel) hs hfuel hnodup
    · omega
    · rw [TokenStream.append_append] at hs hfuel ⊢
      have hnew : g.name ∉ p.globals.map (·.name) := by
        rw [List.map_append, List.nodup_append] at hnodup
        exact fun hmem => hnodup.2.2 _ hmem _ (by simp) rfl
      have hlength : (l ++ TokenStream.eof pos).length < fuel := by
        obtain ⟨w, d, rfl, -⟩ := exists_cons_of_isGlobal hg
        rw [TokenStream.length_append, List.length_cons] at hfuel
        omega
      have heof := TokenStream.readable_eof pos
      rw [declsFrom_global hg hnew hs heof.append ((lineEnds_iff hs.of_append).mpr hend),
        ih _ fuel hs.of_append hlength (by simpa using hnodup)]
      simp
  | @func d l f q hf hend hl ih =>
    rintro p (_ | fuel) hs hfuel hnodup
    · omega
    · rw [TokenStream.append_append] at hs hfuel ⊢
      have hlength : (l ++ TokenStream.eof pos).length < fuel := by
        obtain ⟨w, d, rfl, -⟩ := exists_cons_of_isFunc hf
        rw [TokenStream.length_append, List.length_cons] at hfuel
        omega
      have heof := TokenStream.readable_eof pos
      rw [declsFrom_func hf hs heof.append ((lineEnds_iff hs.of_append).mpr hend),
        ih { p with funcs := p.funcs ++ [f] } fuel hs.of_append hlength hnodup]
      simp

end Decls

end Midend.Source.Parser

namespace Midend.Source

open Parser Grammar

theorem ProgramSyntax.ofTokens_eq_ok_iff_exists {s : TokenStream} {p : ProgramSyntax} :
    ofTokens s = .ok p ↔ s.Readable ∧ ∃ t, declsFrom (s.length + 1) {} s = .ok (p, t) := by
  have hfst : ofTokens s = .ok p ↔
      ∃ t, (do enter s; Parser.program : Parser ProgramSyntax) s = .ok (p, t) := run'_eq_ok
  rw [hfst]
  constructor
  · rintro ⟨t, hrun⟩
    obtain ⟨_, _, henter, hprogram⟩ := bind_eq_ok.mp hrun
    obtain ⟨hr, rfl⟩ := enter_eq_ok.mp henter
    exact ⟨hr, t, hprogram⟩
  · rintro ⟨hr, t, hrun⟩
    exact ⟨t, bind_eq_ok.mpr ⟨(), s, enter_eq_ok.mpr ⟨hr, rfl⟩, hrun⟩⟩

/-- **The parser accepts the programs of the grammar whose global variables have different names**, and
nothing else. -/
theorem ProgramSyntax.ofTokens_eq_ok_iff {s : TokenStream} (hs : s.Proper) {p : ProgramSyntax} :
    ofTokens s = .ok p ↔ ∃ l pos, s = l ++ TokenStream.eof pos ∧ IsProgram l p ∧
      (p.globals.map (·.name)).Nodup := by
  rw [ofTokens_eq_ok_iff_exists]
  constructor
  · rintro ⟨-, t, hdecls⟩
    obtain ⟨l, pos, q, rfl, hl, rfl, hnodup⟩ :=
      declsFrom_sound _ {} s hs (Nat.lt_succ_self _) .nil p t hdecls
    exact ⟨l, pos, rfl, by simpa using hl, hnodup⟩
  · rintro ⟨l, pos, rfl, hl, hnodup⟩
    refine ⟨(TokenStream.readable_eof pos).append, .eof pos, ?_⟩
    simpa using declsFrom_complete hl {} _ hs (Nat.lt_succ_self _) (by simpa using hnodup)

end Midend.Source
