import Mathlib.Data.List.Basic
import Midend.Proofs.Source.Writable

/-!
# Reading spelled text

The tokens of a spelled syntax derive that syntax again, up to positions.  There is one exception: a
return of a value whose type is `void` is spelled like a return without a value, and no rule reads what
follows on the line.

## Main definitions

* `InstrSyntax.bare`, `ProgramSyntax.bare`: a syntax without its positions.
* `Whole`: no line goes on behind `ret void`.

## Main results

* `InstrSyntax.Writable.exists_isInstr`, `ProgramSyntax.Writable.exists_isProgram`: the tokens of a
  spelled syntax derive it.
* `whole_of_isProgram`: no line of a program goes on behind `ret void`.
-/

namespace Midend.Source

open Grammar

/-! ### Without positions -/

/-- The operand without its position. -/
def Operand.bare (a : Operand) : Operand := { a with pos := default }

/-- The label without its position. -/
def Target.bare (t : Target) : Target := { t with pos := default }

/-- The instruction without positions. -/
def InstrSyntax.bare (i : InstrSyntax) : InstrSyntax :=
  { i with pos := default, args := i.args.map Operand.bare, targets := i.targets.map Target.bare }

/-- The block without positions. -/
def BlockSyntax.bare (b : BlockSyntax) : BlockSyntax :=
  { b with pos := default, instrs := b.instrs.map InstrSyntax.bare }

/-- The parameter without its position. -/
def ParamSyntax.bare (a : ParamSyntax) : ParamSyntax := { a with pos := default }

/-- The function without positions. -/
def FuncSyntax.bare (fn : FuncSyntax) : FuncSyntax :=
  { fn with pos := default, params := fn.params.map ParamSyntax.bare,
            blocks := fn.blocks.map BlockSyntax.bare }

/-- The program without positions. -/
def ProgramSyntax.bare (s : ProgramSyntax) : ProgramSyntax :=
  { s with funcs := s.funcs.map FuncSyntax.bare }

theorem InstrSyntax.bare_eq_bare {i j : InstrSyntax} (hop : j.op = i.op) (hname : j.name = i.name)
    (hty : j.ty = i.ty) (helem : j.elem = i.elem) (hcallee : j.callee = i.callee)
    (hargs : j.args.map Operand.bare = i.args.map Operand.bare)
    (htargets : j.targets.map Target.bare = i.targets.map Target.bare) : j.bare = i.bare := by
  unfold InstrSyntax.bare
  rw [hop, hname, hty, helem, hcallee, hargs, htargets]

/-! ### Spellings are read -/

section Derivations

variable {l : List Token}

theorem exists_isOperand {a : Operand} (hl : Spelled a.form.pieces l) :
    ∃ b, IsOperand l b ∧ b.bare = a.bare := by
  obtain ⟨pos, form⟩ := a
  cases form with
  | value n =>
    simp only [OperandForm.pieces, spelled_mark, spelled_name, spelled_nil] at hl
    obtain ⟨m, _, hm, ⟨t, _, ⟨ht, rfl⟩, rfl, rfl⟩, rfl⟩ := hl
    exact ⟨_, .value hm ht, rfl⟩
  | global n =>
    simp only [OperandForm.pieces, spelled_mark, spelled_name, spelled_nil] at hl
    obtain ⟨m, _, hm, ⟨t, _, ⟨ht, rfl⟩, rfl, rfl⟩, rfl⟩ := hl
    exact ⟨_, .global hm ht, rfl⟩
  | literal v =>
    by_cases hsign : 0 ≤ v.toInt
    · simp only [OperandForm.pieces, hsign, if_true, spelled_number, spelled_nil] at hl
      obtain ⟨t, _, ⟨ht, htext⟩, rfl, rfl⟩ := hl
      refine ⟨_, .literal (v := v) ht ?_, rfl⟩
      rw [htext, magnitude_repr]
      omega
    · simp only [OperandForm.pieces, hsign, if_false, spelled_mark, spelled_number, spelled_nil] at hl
      obtain ⟨m, _, hm, ⟨t, _, ⟨ht, htext⟩, rfl, rfl⟩, rfl⟩ := hl
      refine ⟨_, .negative (v := v) hm ht ?_, rfl⟩
      rw [htext, magnitude_repr]
      omega

/-- Items with commas between them are read one by one. -/
theorem exists_separated {α β : Type} {Item : List Token → α → Prop} {f : α → List Piece} {g : α → β}
    {as : List α} (hl : Spelled (listed (as.map f)) l)
    (hitem : ∀ a ∈ as, ∀ l, Spelled (f a) l → ∃ b, Item l b ∧ g b = g a) :
    ∃ bs, Separated Item l bs ∧ bs.map g = as.map g := by
  induction as generalizing l with
  | nil =>
    rw [spelled_nil.mp hl]
    exact ⟨[], .none, rfl⟩
  | cons a as ih =>
    rw [List.forall_mem_cons] at hitem
    cases as with
    | nil =>
      obtain ⟨b, hb, hbare⟩ := hitem.1 l (by simpa [listed] using hl)
      exact ⟨[b], .last hb, by simp [hbare]⟩
    | cons a' as =>
      rw [listed, List.map_cons, List.map_cons, List.intercalate_cons_cons, List.append_assoc,
        spelled_append] at hl
      obtain ⟨l₁, _, h₁, hrest, rfl⟩ := hl
      obtain ⟨comma, l₂, hcomma, h₂, rfl⟩ := spelled_mark.mp hrest
      obtain ⟨b, hb, hbare⟩ := hitem.1 l₁ h₁
      obtain ⟨bs, hbs, hbares⟩ := ih (spelled_blank.mp h₂) hitem.2
      exact ⟨b :: bs, .more hb hcomma hbs, by rw [List.map_cons, hbare, hbares, ← List.map_cons]⟩

theorem exists_isPair {i : InstrSyntax} (hi : i.args.length = 2) (hl : Spelled i.argsPieces l) :
    ∃ args, IsPair l args ∧ args.map Operand.bare = i.args.map Operand.bare := by
  obtain ⟨x, y, hargs⟩ := List.length_eq_two.mp hi
  rw [InstrSyntax.argsPieces, hargs, listed] at hl
  simp only [List.map_cons, List.map_nil, List.intercalate_cons_cons, List.intercalate_singleton,
    List.append_assoc, spelled_append, List.cons_append, List.nil_append, spelled_mark, spelled_blank] at hl
  obtain ⟨l₁, _, h₁, ⟨comma, l₂, hcomma, h₂, rfl⟩, rfl⟩ := hl
  obtain ⟨x', hx, hbare⟩ := exists_isOperand h₁
  obtain ⟨y', hy, hbare'⟩ := exists_isOperand h₂
  refine ⟨[x', y'], .mk hx hcomma hy, ?_⟩
  simp [hargs, hbare, hbare']

theorem exists_isOperand_of_args {i : InstrSyntax} (hi : i.args.length = 1) (hl : Spelled i.argsPieces l) :
    ∃ x, IsOperand l x ∧ [x].map Operand.bare = i.args.map Operand.bare := by
  obtain ⟨x, hargs⟩ := List.length_eq_one_iff.mp hi
  rw [InstrSyntax.argsPieces, hargs, listed, List.map_singleton, List.intercalate_singleton] at hl
  obtain ⟨x', hx, hbare⟩ := exists_isOperand hl
  exact ⟨x', hx, by simp [hargs, hbare]⟩

theorem isType_of_isWord {t : Token} {ty : Ty} (ht : t.IsWord ty.text) (hty : ty.Named) : t.IsType ty :=
  ⟨ht.1, by rw [ht.2]; exact hty⟩

theorem isOpcode_of_isWord {t : Token} {op : Opcode} (ht : t.IsWord op.text) (hop : op ∈ Opcode.named) :
    t.IsOpcode op := by
  have hall : Opcode.named.all (fun op => decide (Opcode.parse? op.text = some op)) = true := by
    decide
  exact ⟨ht.1, by rw [ht.2]; exact of_decide_eq_true (List.all_eq_true.mp hall op hop)⟩

/-- A type and two operands. -/
theorem exists_typedPair {i : InstrSyntax} {ty : Ty} (hty : ty.Named) (hi : i.args.length = 2)
    (hl : Spelled (.blank :: .word ty.text :: .blank :: i.argsPieces) l) : ∃ t l' args, t.IsType ty ∧
      IsPair l' args ∧ l = t :: l' ∧ args.map Operand.bare = i.args.map Operand.bare := by
  simp only [spelled_blank, spelled_word] at hl
  obtain ⟨t, l', ht, hl', rfl⟩ := hl
  obtain ⟨args, hpair, hbare⟩ := exists_isPair hi hl'
  exact ⟨t, l', args, isType_of_isWord ht hty, hpair, rfl, hbare⟩

/-- What is in front of an operation, and the operation. -/
theorem exists_isInstr_of_rest {i : InstrSyntax} {ps : List Piece} (hi : i.Writable)
    (hl : Spelled (i.resultPieces ++ .word i.op.text :: ps) l)
    (hrest : ∀ pos l, Spelled ps l →
      ∃ j, Completes { pos := pos, op := i.op, name := i.name } l j ∧ j.bare = i.bare) :
    ∃ j, IsInstr l j ∧ j.bare = i.bare := by
  unfold InstrSyntax.resultPieces at hl
  split at hl
  · next hvoid =>
    rw [List.nil_append, spelled_word] at hl
    obtain ⟨w, l', hw, hl', rfl⟩ := hl
    obtain ⟨j, hj, hbare⟩ := hrest w.pos l' hl'
    rw [hi.unnamed (hi.isVoid_iff.mp hvoid)] at hj
    exact ⟨j, .plain (isOpcode_of_isWord hw hi.mem_named) hj, hbare⟩
  · next hvoid =>
    simp only [List.cons_append, List.nil_append, spelled_mark, spelled_name, spelled_blank,
      spelled_word] at hl
    obtain ⟨m, _, hm, ⟨n, _, ⟨hn, hname⟩, ⟨eq, _, heq, ⟨w, l', hw, hl', rfl⟩, rfl⟩, rfl⟩, rfl⟩ := hl
    obtain ⟨j, hj, hbare⟩ := hrest m.pos l' hl'
    have hty : j.ty = i.ty := (InstrSyntax.mk.inj hbare).2.2.2.1
    rw [← hname] at hj
    exact ⟨j, .named hm hn heq (isOpcode_of_isWord hw hi.mem_named) hj
      (hty ▸ mt hi.isVoid_iff.mpr hvoid), hbare⟩

/-- The same for an operation without a result. -/
theorem exists_isInstr_of_plain {i : InstrSyntax} {ps : List Piece} (hi : i.Writable) (hty : i.ty = .void)
    (hl : Spelled (.word i.op.text :: ps) l)
    (hrest : ∀ pos l, Spelled ps l →
      ∃ j, Completes { pos := pos, op := i.op, name := i.name } l j ∧ j.bare = i.bare) :
    ∃ j, IsInstr l j ∧ j.bare = i.bare := by
  have hnone : i.resultPieces = [] := if_pos (hi.isVoid_iff.mpr hty)
  exact exists_isInstr_of_rest hi (by rwa [hnone, List.nil_append]) hrest

/-- **The tokens of a spelled instruction derive it.** -/
theorem InstrSyntax.Writable.exists_isInstr {i : InstrSyntax} (hi : i.Writable)
    (hret : i.op = .ret → i.args ≠ [] → i.elem ≠ .void) (hl : Spelled i.pieces l) :
    ∃ j, IsInstr l j ∧ j.bare = i.bare := by
  cases hi.fits with
  | arith h helem hcallee hargs htargets =>
    rw [InstrSyntax.pieces_arith h] at hl
    refine exists_isInstr_of_rest hi hl fun pos l hl => ?_
    obtain ⟨t, l', args, ht, hpair, rfl, hbare⟩ := exists_typedPair hi.ty hargs hl
    exact ⟨_, .arith h ht hpair,
      bare_eq_bare rfl rfl rfl helem.symm hcallee.symm hbare (by rw [htargets])⟩
  | cmp h hty hcallee hargs htargets =>
    rw [InstrSyntax.pieces_cmp h] at hl
    refine exists_isInstr_of_rest hi hl fun pos l hl => ?_
    obtain ⟨t, l', args, ht, hpair, rfl, hbare⟩ := exists_typedPair hi.elem hargs hl
    exact ⟨_, .cmp h ht hpair,
      bare_eq_bare rfl rfl hty.symm rfl hcallee.symm hbare (by rw [htargets])⟩
  | alloca h hty hcallee hargs htargets =>
    rw [InstrSyntax.pieces_alloca h] at hl
    refine exists_isInstr_of_rest hi hl fun pos l hl => ?_
    simp only [spelled_blank, spelled_word, spelled_nil] at hl
    obtain ⟨t, _, ht, rfl, rfl⟩ := hl
    exact ⟨_, .alloca h (isType_of_isWord ht hi.elem),
      bare_eq_bare rfl rfl hty.symm rfl hcallee.symm (by rw [hargs]) (by rw [htargets])⟩
  | load h helem hcallee hargs htargets =>
    rw [InstrSyntax.pieces_load h] at hl
    refine exists_isInstr_of_rest hi hl fun pos l hl => ?_
    simp only [spelled_blank, spelled_word, spelled_mark] at hl
    obtain ⟨t, _, ht, ⟨comma, l', hcomma, hl', rfl⟩, rfl⟩ := hl
    obtain ⟨x, hx, hbare⟩ := exists_isOperand_of_args hargs hl'
    exact ⟨_, .load h (isType_of_isWord ht hi.ty) hcomma hx,
      bare_eq_bare rfl rfl rfl helem.symm hcallee.symm hbare (by rw [htargets])⟩
  | store h hty hcallee hargs htargets =>
    rw [InstrSyntax.pieces_store h] at hl
    refine exists_isInstr_of_plain hi hty hl fun pos l hl => ?_
    obtain ⟨t, l', args, ht, hpair, rfl, hbare⟩ := exists_typedPair hi.elem hargs hl
    exact ⟨_, .store h ht hpair,
      bare_eq_bare rfl rfl hty.symm rfl hcallee.symm hbare (by rw [htargets])⟩
  | call h helem hcallee htargets =>
    rw [InstrSyntax.pieces_call h] at hl
    refine exists_isInstr_of_rest hi hl fun pos l hl => ?_
    simp only [spelled_blank, spelled_word, spelled_mark, spelled_name, spelled_append, spelled_nil] at hl
    obtain ⟨t, _, ht, ⟨m, _, hm, ⟨n, _, ⟨hn, hname⟩, ⟨opening, _, hopening, ⟨l', _, hl', ⟨closing, _,
      hclosing, rfl, rfl⟩, rfl⟩, rfl⟩, rfl⟩, rfl⟩, rfl⟩ := hl
    obtain ⟨args, hargs, hbare⟩ := exists_separated hl' fun a _ l => exists_isOperand
    exact ⟨_, .call h (isType_of_isWord ht hi.ty) hm hn hopening hargs hclosing,
      bare_eq_bare rfl rfl rfl helem.symm hname hbare (by rw [htargets])⟩
  | br h hty helem hcallee hargs htargets =>
    rw [InstrSyntax.pieces_br h] at hl
    refine exists_isInstr_of_plain hi hty hl fun pos l hl => ?_
    obtain ⟨target, htarget⟩ := List.length_eq_one_iff.mp htargets
    simp only [spelled_blank, targetsPieces, htarget, listed, List.map_singleton,
      List.intercalate_singleton, spelled_name, spelled_nil] at hl
    obtain ⟨n, _, ⟨hn, hname⟩, rfl, rfl⟩ := hl
    exact ⟨_, .br h hn, bare_eq_bare rfl rfl hty.symm helem.symm hcallee.symm (by rw [hargs])
      (by simp [htarget, Target.bare, hname])⟩
  | condbr h hty helem hcallee hargs htargets =>
    rw [InstrSyntax.pieces_condbr h] at hl
    refine exists_isInstr_of_plain hi hty hl fun pos l hl => ?_
    obtain ⟨yes, no, htarget⟩ := List.length_eq_two.mp htargets
    simp only [spelled_blank, targetsPieces, htarget, listed, List.map_cons, List.map_nil,
      List.intercalate_cons_cons, List.intercalate_singleton, List.cons_append, List.nil_append,
      spelled_append, spelled_mark, spelled_name, spelled_nil] at hl
    obtain ⟨l', _, hl', ⟨comma, _, hcomma, ⟨n, _, ⟨hn, hname⟩, ⟨comma', _, hcomma', ⟨n', _, ⟨hn', hname'⟩,
      rfl, rfl⟩, rfl⟩, rfl⟩, rfl⟩, rfl⟩ := hl
    obtain ⟨x, hx, hbare⟩ := exists_isOperand_of_args hargs hl'
    exact ⟨_, .condbr h hx hcomma hn hcomma' hn', bare_eq_bare rfl rfl hty.symm helem.symm hcallee.symm
      hbare (by simp [htarget, Target.bare, hname, hname'])⟩
  | retVoid h hty helem hcallee hargs htargets =>
    rw [InstrSyntax.pieces_retVoid h hargs] at hl
    refine exists_isInstr_of_plain hi hty hl fun pos l hl => ?_
    simp only [spelled_blank, spelled_word, spelled_nil] at hl
    obtain ⟨t, _, ht, rfl, rfl⟩ := hl
    exact ⟨_, .retVoid h ht, bare_eq_bare rfl rfl hty.symm helem.symm hcallee.symm (by rw [hargs])
      (by rw [htargets])⟩
  | ret h hty hcallee hargs htargets =>
    have hsome : i.args ≠ [] := List.ne_nil_of_length_eq_add_one hargs
    rw [InstrSyntax.pieces_ret h hsome] at hl
    refine exists_isInstr_of_plain hi hty hl fun pos l hl => ?_
    simp only [spelled_blank, spelled_word] at hl
    obtain ⟨t, l', ht, hl', rfl⟩ := hl
    obtain ⟨x, hx, hbare⟩ := exists_isOperand_of_args hargs hl'
    exact ⟨_, .ret h (isType_of_isWord ht hi.elem) (hret h hsome) hx,
      bare_eq_bare rfl rfl hty.symm rfl hcallee.symm hbare (by rw [htargets])⟩

/-- The tokens of the spelled instruction derive it. -/
def InstrSyntax.Rereads (i : InstrSyntax) : Prop :=
  ∀ l, Spelled i.pieces l → ∃ j, IsInstr l j ∧ j.bare = i.bare

theorem exists_isLines {is : List InstrSyntax} (his : ∀ i ∈ is, i.Rereads)
    (hl : Spelled (is.flatMap InstrSyntax.line) l) :
    ∃ js, IsLines l js ∧ js.map InstrSyntax.bare = is.map InstrSyntax.bare := by
  induction is generalizing l with
  | nil =>
    rw [spelled_nil.mp hl]
    exact ⟨[], .done, rfl⟩
  | cons i is ih =>
    rw [List.forall_mem_cons] at his
    simp only [List.flatMap_cons, InstrSyntax.line, List.cons_append, List.nil_append, List.append_assoc,
      spelled_blank, spelled_append, spelled_mark] at hl
    obtain ⟨l₁, _, h₁, ⟨nl, l₂, hnl, h₂, rfl⟩, rfl⟩ := hl
    obtain ⟨j, hj, hbare⟩ := his.1 l₁ h₁
    obtain ⟨js, hjs, hbares⟩ := ih his.2 h₂
    exact ⟨j :: js, .instr hj hnl hjs, by rw [List.map_cons, hbare, hbares, List.map_cons]⟩

theorem exists_isBody {bs : List BlockSyntax} (hbs : ∀ b ∈ bs, ∀ i ∈ b.instrs, i.Rereads)
    (hl : Spelled (bs.flatMap BlockSyntax.pieces) l) :
    ∃ bs', IsBody l bs' ∧ bs'.map BlockSyntax.bare = bs.map BlockSyntax.bare := by
  induction bs generalizing l with
  | nil =>
    rw [spelled_nil.mp hl]
    exact ⟨[], .done, rfl⟩
  | cons b bs ih =>
    rw [List.forall_mem_cons] at hbs
    simp only [List.flatMap_cons, BlockSyntax.pieces, List.cons_append, List.nil_append,
      spelled_append, spelled_mark, spelled_name] at hl
    obtain ⟨n, _, ⟨hn, hname⟩, ⟨colon, _, hcolon, ⟨nl, _, hnl, ⟨l₁, l₂, h₁, h₂, rfl⟩, rfl⟩, rfl⟩, rfl⟩ := hl
    obtain ⟨is, his, hbare⟩ := exists_isLines hbs.1 h₁
    obtain ⟨bs', hbs', hbares⟩ := ih hbs.2 h₂
    refine ⟨_, .block hn hcolon (.empty hnl his) hbs', ?_⟩
    rw [List.map_cons, List.map_cons, hbares, BlockSyntax.bare, BlockSyntax.bare, hbare, hname]

theorem exists_isParam {a : ParamSyntax} (hty : a.ty.Named) (hl : Spelled a.pieces l) :
    ∃ b, IsParam l b ∧ b.bare = a.bare := by
  simp only [ParamSyntax.pieces, spelled_mark, spelled_name, spelled_blank, spelled_word,
    spelled_nil] at hl
  obtain ⟨m, _, hm, ⟨n, _, ⟨hn, hname⟩, ⟨colon, _, hcolon, ⟨t, _, ht, rfl, rfl⟩, rfl⟩, rfl⟩, rfl⟩ := hl
  refine ⟨_, .mk hm hn hcolon (isType_of_isWord ht hty), ?_⟩
  rw [ParamSyntax.bare, ParamSyntax.bare, hname]

theorem isResult_of_spelled {fn : FuncSyntax} (hret : fn.ret.Named) (hl : Spelled fn.retPieces l) :
    IsResult l fn.ret := by
  unfold FuncSyntax.retPieces at hl
  split at hl
  · next hvoid =>
    rw [spelled_nil.mp hl, (Parser.isVoid_iff_of_parse hret).mp hvoid]
    exact .none
  · simp only [spelled_mark, spelled_blank, spelled_word, spelled_nil] at hl
    obtain ⟨colon, _, hcolon, ⟨t, _, ht, rfl, rfl⟩, rfl⟩ := hl
    exact .some hcolon (isType_of_isWord ht hret)

theorem exists_isFunc {fn : FuncSyntax} (hfn : fn.Writable)
    (hinstrs : ∀ b ∈ fn.blocks, ∀ i ∈ b.instrs, i.Rereads) (hl : Spelled fn.pieces l) :
    ∃ fn', IsFunc l fn' ∧ fn'.bare = fn.bare := by
  simp only [FuncSyntax.pieces, List.append_assoc, List.cons_append, List.nil_append, spelled_append,
    spelled_mark, spelled_name, spelled_word, spelled_blank, spelled_nil] at hl
  obtain ⟨w, _, hw, ⟨m, _, hm, ⟨n, _, ⟨hn, hname⟩, ⟨opening, _, hopening, ⟨ps, _, hps, ⟨closing, _, hclosing,
    ⟨r, _, hr, ⟨left, _, hleft, ⟨nl, _, hnl, ⟨body, _, hbody, ⟨right, _, hright, rfl, rfl⟩, rfl⟩, rfl⟩,
      rfl⟩, rfl⟩, rfl⟩, rfl⟩, rfl⟩, rfl⟩, rfl⟩, rfl⟩ := hl
  obtain ⟨params, hparams, hbare⟩ := exists_separated (g := ParamSyntax.bare) hps
    fun a ha l => exists_isParam (hfn.params a ha).2
  obtain ⟨blocks, hblocks, hbares⟩ := exists_isBody hinstrs hbody
  refine ⟨_, .mk hw hm hn hopening hparams hclosing (isResult_of_spelled hfn.ret hr) hleft
    (.empty hnl hblocks) hright, ?_⟩
  rw [FuncSyntax.bare, FuncSyntax.bare, hname, hbare, hbares]

theorem isGlobal_of_spelled {g : GlobalSyntax} (helem : g.elem.Named) (hl : Spelled g.pieces l) :
    IsGlobal l g := by
  simp only [GlobalSyntax.pieces, spelled_mark, spelled_name, spelled_blank, spelled_word,
    spelled_nil] at hl
  obtain ⟨w, _, hw, ⟨m, _, hm, ⟨n, _, ⟨hn, hname⟩, ⟨colon, _, hcolon, ⟨t, _, ht, rfl, rfl⟩, rfl⟩, rfl⟩, rfl⟩,
    rfl⟩ := hl
  obtain ⟨_, elem⟩ := g
  cases hname
  exact .mk hw hm hn hcolon (isType_of_isWord ht helem)

theorem lineEnds_cons {nl : Token} (hnl : nl.IsMark '\n') : LineEnds (nl :: l) := by
  intro t ht
  cases ht
  exact hnl

/-- What the functions of a program say. -/
def RereadsFuncs (fns : List FuncSyntax) : Prop :=
  ∀ l, Spelled ([Piece.newline, .newline].intercalate (fns.map FuncSyntax.pieces) ++ [.newline]) l →
    ∃ s, IsProgram l s ∧ s.bare = { funcs := fns.map FuncSyntax.bare }

/-- A part of a program and the functions behind it.  A part that nothing follows is followed by one end
of a line, any other one by two. -/
theorem RereadsFuncs.exists_part {fns : List FuncSyntax} {part : List Piece} (hfns : RereadsFuncs fns)
    (hl : Spelled ([Piece.newline, .newline].intercalate (part :: fns.map FuncSyntax.pieces) ++
      [.newline]) l) :
    ∃ l₁ nl l₂ s, Spelled part l₁ ∧ nl.IsMark '\n' ∧ IsProgram (nl :: l₂) s ∧
      s.bare = { funcs := fns.map FuncSyntax.bare } ∧ l = l₁ ++ nl :: l₂ := by
  cases fns with
  | nil =>
    simp only [List.map_nil, List.intercalate_singleton, spelled_append, spelled_mark, spelled_nil] at hl
    obtain ⟨l₁, _, h₁, ⟨nl, _, hnl, rfl, rfl⟩, rfl⟩ := hl
    exact ⟨l₁, nl, [], _, h₁, hnl, .empty hnl .done, rfl, rfl⟩
  | cons fn fns =>
    rw [List.map_cons, List.intercalate_cons_cons, List.append_assoc, List.append_assoc, spelled_append] at hl
    obtain ⟨l₁, _, h₁, hrest, rfl⟩ := hl
    obtain ⟨nl, _, hnl, hrest', rfl⟩ := spelled_mark.mp hrest
    obtain ⟨nl', l₂, hnl', h₂, rfl⟩ := spelled_mark.mp hrest'
    obtain ⟨s, hs, hbare⟩ := hfns l₂ h₂
    exact ⟨l₁, nl, nl' :: l₂, s, h₁, hnl, .empty hnl (.empty hnl' hs), hbare, rfl⟩

theorem rereadsFuncs {fns : List FuncSyntax}
    (hfns : ∀ fn ∈ fns, ∀ l, Spelled fn.pieces l → ∃ fn', IsFunc l fn' ∧ fn'.bare = fn.bare) :
    RereadsFuncs fns := by
  induction fns with
  | nil =>
    intro l hl
    simp only [List.map_nil, List.intercalate_nil, List.nil_append, spelled_mark, spelled_nil] at hl
    obtain ⟨nl, _, hnl, rfl, rfl⟩ := hl
    exact ⟨_, .empty hnl .done, rfl⟩
  | cons fn fns ih =>
    rw [List.forall_mem_cons] at hfns
    intro l hl
    obtain ⟨l₁, nl, l₂, s, h₁, hnl, hs, hbares, rfl⟩ := (ih hfns.2).exists_part hl
    obtain ⟨fn', hfn', hbare⟩ := hfns.1 l₁ h₁
    obtain ⟨hglobals, hfuncs⟩ := ProgramSyntax.mk.inj hbares
    refine ⟨_, .func hfn' (lineEnds_cons hnl) hs, ?_⟩
    rw [ProgramSyntax.bare, List.map_cons, hbare, hfuncs, hglobals, List.map_cons]

/-- Global variables on lines of their own, before the rest of a program. -/
theorem isProgram_globals {gs : List GlobalSyntax} {l' : List Token} {s : ProgramSyntax}
    (hgs : ∀ g ∈ gs, g.elem.Named)
    (hl : Spelled ([Piece.newline].intercalate (gs.map GlobalSyntax.pieces)) l) (hend : LineEnds l')
    (hs : IsProgram l' s) : IsProgram (l ++ l') { s with globals := gs ++ s.globals } := by
  induction gs generalizing l with
  | nil =>
    rw [spelled_nil.mp hl]
    exact hs
  | cons g gs ih =>
    rw [List.forall_mem_cons] at hgs
    cases gs with
    | nil =>
      rw [List.map_singleton, List.intercalate_singleton] at hl
      exact .global (isGlobal_of_spelled hgs.1 hl) hend hs
    | cons g' gs =>
      rw [List.map_cons, List.map_cons, List.intercalate_cons_cons, List.append_assoc, spelled_append] at hl
      obtain ⟨l₁, _, h₁, hrest, rfl⟩ := hl
      obtain ⟨nl, l₂, hnl, h₂, rfl⟩ := spelled_mark.mp hrest
      rw [List.append_assoc, List.cons_append]
      exact .global (isGlobal_of_spelled hgs.1 h₁) (lineEnds_cons hnl) (.empty hnl (ih hgs.2 h₂))

/-- **The tokens of a spelled program derive it**, up to positions, if no value without a type is
returned. -/
theorem ProgramSyntax.Writable.exists_isProgram {s : ProgramSyntax} (hs : s.Writable)
    (hret : ∀ fn ∈ s.funcs, ∀ b ∈ fn.blocks, ∀ i ∈ b.instrs, i.op = .ret → i.args ≠ [] → i.elem ≠ .void)
    (hl : Spelled s.pieces l) : ∃ s', IsProgram l s' ∧ s'.bare = s.bare := by
  have hfuncs : RereadsFuncs s.funcs :=
    rereadsFuncs fun fn hfn l => exists_isFunc (hs.funcs fn hfn) fun b hb i hi l =>
      ((hs.funcs fn hfn).instrs b hb i hi).exists_isInstr (hret fn hfn b hb i hi)
  unfold ProgramSyntax.pieces ProgramSyntax.parts at hl
  split at hl
  · next hnone =>
    obtain ⟨s', hs', hbare⟩ := hfuncs l hl
    exact ⟨s', hs', by rw [hbare, ProgramSyntax.bare, List.isEmpty_iff.mp hnone]⟩
  · obtain ⟨l₁, nl, l₂, s', h₁, hnl, hs', hbare, rfl⟩ := hfuncs.exists_part hl
    obtain ⟨hglobals, hbares⟩ := ProgramSyntax.mk.inj hbare
    refine ⟨_, isProgram_globals (fun g hg => (hs.globals g hg).2) h₁ (lineEnds_cons hnl) hs', ?_⟩
    rw [ProgramSyntax.bare, ProgramSyntax.bare, hbares, hglobals, List.append_nil]

end Derivations

/-! ### Lines that are not read -/

/-- The line starts with `ret void` and goes on. -/
def GoesOn (l : List Token) : Prop :=
  ∃ w v t r, l = w :: v :: t :: r ∧ w.IsWord "ret" ∧ v.IsWord "void" ∧ ¬t.IsMark '\n'

/-- No line behind the first one starts with `ret void` and goes on. -/
def Unbroken : List Token → Prop
  | [] => True
  | t :: l => (t.IsMark '\n' → ¬GoesOn l) ∧ Unbroken l

section Lines

variable {l r : List Token}

theorem Unbroken.of_append (h : Unbroken (l ++ r)) : Unbroken r := by
  induction l with
  | nil => exact h
  | cons t l ih => exact ih h.2

theorem unbroken_cons {t : Token} (ht : ¬t.IsMark '\n') (hl : Unbroken l) : Unbroken (t :: l) :=
  ⟨fun hnl => absurd hnl ht, hl⟩

theorem unbroken_append (hl : ∀ t ∈ l, ¬t.IsMark '\n') (hr : Unbroken r) : Unbroken (l ++ r) := by
  induction l with
  | nil => exact hr
  | cons t l ih =>
    rw [List.forall_mem_cons] at hl
    exact unbroken_cons hl.1 (ih hl.2)

theorem not_newline_of_kind {t : Token} {k : TokenKind} (h : t.kind = k) (hk : k ≠ .mark '\n') :
    ¬t.IsMark '\n' :=
  fun hnl => hk (h.symm.trans hnl)

theorem not_newline_of_isName {t : Token} (h : t.IsName) : ¬t.IsMark '\n' := by
  rcases h with h | h
  · exact not_newline_of_kind h (by decide)
  · exact not_newline_of_kind h (by decide)

theorem not_newline_of_isOperand {a : Operand} (h : IsOperand l a) : ∀ t ∈ l, ¬t.IsMark '\n' := by
  cases h with
  | value hm hn => simp [not_newline_of_kind hm, not_newline_of_isName hn]
  | global hm hn => simp [not_newline_of_kind hm, not_newline_of_isName hn]
  | literal ht => simp [not_newline_of_kind ht]
  | negative hm ht => simp [not_newline_of_kind hm, not_newline_of_kind ht]

theorem not_newline_of_separated {α : Type} {Item : List Token → α → Prop} {as : List α}
    (h : Separated Item l as) (hitem : ∀ l a, Item l a → ∀ t ∈ l, ¬t.IsMark '\n') :
    ∀ t ∈ l, ¬t.IsMark '\n' := by
  induction h with
  | none => simp
  | last ha => exact hitem _ _ ha
  | more ha hcomma _ ih =>
    rw [List.forall_mem_append, List.forall_mem_cons]
    exact ⟨hitem _ _ ha, not_newline_of_kind hcomma (by decide), ih⟩

theorem not_newline_of_isPair {args : List Operand} (h : IsPair l args) : ∀ t ∈ l, ¬t.IsMark '\n' := by
  obtain ⟨hx, hcomma, hy⟩ := h
  rw [List.forall_mem_append, List.forall_mem_cons]
  exact ⟨not_newline_of_isOperand hx, not_newline_of_kind hcomma (by decide), not_newline_of_isOperand hy⟩

theorem not_newline_of_completes {i j : InstrSyntax} (h : Completes i l j) :
    ∀ t ∈ l, ¬t.IsMark '\n' := by
  cases h with
  | arith _ ht hargs =>
    exact List.forall_mem_cons.mpr ⟨not_newline_of_kind ht.1 (by decide), not_newline_of_isPair hargs⟩
  | cmp _ ht hargs =>
    exact List.forall_mem_cons.mpr ⟨not_newline_of_kind ht.1 (by decide), not_newline_of_isPair hargs⟩
  | alloca _ ht => simp [not_newline_of_kind ht.1]
  | load _ ht hcomma hx =>
    simp only [List.forall_mem_cons]
    exact ⟨not_newline_of_kind ht.1 (by decide), not_newline_of_kind hcomma (by decide),
      not_newline_of_isOperand hx⟩
  | store _ ht hargs =>
    exact List.forall_mem_cons.mpr ⟨not_newline_of_kind ht.1 (by decide), not_newline_of_isPair hargs⟩
  | call _ ht hm hn hopening hargs hclosing =>
    simp only [List.forall_mem_cons, List.forall_mem_append]
    exact ⟨not_newline_of_kind ht.1 (by decide), not_newline_of_kind hm (by decide), not_newline_of_isName hn,
      not_newline_of_kind hopening (by decide),
      not_newline_of_separated hargs fun _ _ => not_newline_of_isOperand,
      not_newline_of_kind hclosing (by decide), by simp⟩
  | br _ hn => simpa using not_newline_of_isName hn
  | condbr _ hx hcomma hyes hcomma' hno =>
    simp only [List.forall_mem_cons, List.forall_mem_append]
    exact ⟨not_newline_of_isOperand hx, not_newline_of_kind hcomma (by decide), not_newline_of_isName hyes,
      not_newline_of_kind hcomma' (by decide), not_newline_of_isName hno, by simp⟩
  | retVoid _ ht => simp [not_newline_of_kind ht.1]
  | ret _ ht _ hx =>
    exact List.forall_mem_cons.mpr ⟨not_newline_of_kind ht.1 (by decide), not_newline_of_isOperand hx⟩

theorem not_newline_of_isInstr {i : InstrSyntax} (h : IsInstr l i) : ∀ t ∈ l, ¬t.IsMark '\n' := by
  cases h with
  | plain hw hi =>
    exact List.forall_mem_cons.mpr ⟨not_newline_of_kind hw.1 (by decide), not_newline_of_completes hi⟩
  | named hm hn heq hw hi _ =>
    simp only [List.forall_mem_cons]
    exact ⟨not_newline_of_kind hm (by decide), not_newline_of_isName hn, not_newline_of_kind heq (by decide),
      not_newline_of_kind hw.1 (by decide), not_newline_of_completes hi⟩

theorem not_newline_of_isParam {a : ParamSyntax} (h : IsParam l a) : ∀ t ∈ l, ¬t.IsMark '\n' := by
  obtain ⟨hm, hn, hcolon, ht⟩ := h
  simp [not_newline_of_kind hm, not_newline_of_isName hn, not_newline_of_kind hcolon,
    not_newline_of_kind ht.1]

theorem not_newline_of_isResult {ret : Ty} (h : IsResult l ret) : ∀ t ∈ l, ¬t.IsMark '\n' := by
  cases h with
  | none => simp
  | some hcolon ht => simp [not_newline_of_kind hcolon, not_newline_of_kind ht.1]

theorem not_newline_of_isGlobal {g : GlobalSyntax} (h : IsGlobal l g) : ∀ t ∈ l, ¬t.IsMark '\n' := by
  obtain ⟨hw, hm, hn, hcolon, ht⟩ := h
  simp [not_newline_of_kind hw.1, not_newline_of_kind hm, not_newline_of_isName hn,
    not_newline_of_kind hcolon, not_newline_of_kind ht.1]

theorem not_goesOn_of_first {t : Token} (h : ¬t.IsWord "ret") : ¬GoesOn (t :: l) := by
  rintro ⟨w, v, x, r, heq, hw, -⟩
  cases heq
  exact h hw

theorem not_isWord_of_mark {t : Token} {c : Char} {w : String} (h : t.IsMark c) : ¬t.IsWord w := by
  intro hw
  cases hw.1.symm.trans h

theorem not_goesOn_of_mark {t : Token} {c : Char} (h : t.IsMark c) : ¬GoesOn (t :: l) :=
  not_goesOn_of_first (not_isWord_of_mark h)

/-- An instruction takes its whole line, so that none goes on behind `ret void`. -/
theorem not_goesOn_of_isInstr {i : InstrSyntax} {nl : Token} (h : IsInstr l i) (hnl : nl.IsMark '\n') :
    ¬GoesOn (l ++ nl :: r) := by
  cases h with
  | named hm => exact not_goesOn_of_mark hm
  | @plain l w op i hw hi =>
    rintro ⟨w', v, t, r', heq, hret, hvoid, ht⟩
    rw [List.cons_append, List.cons.injEq] at heq
    obtain ⟨rfl, heq⟩ := heq
    have hop : op = .ret := by
      have hparse := hw.2
      rw [hret.2] at hparse
      exact (Option.some.inj hparse).symm
    rcases (Parser.completes_ret_iff hop).mp hi with ⟨t', ht', rfl, -⟩ | ⟨t', elem, l', x, ht', hne, -, rfl, -⟩
    · cases heq
      exact ht hnl
    · obtain ⟨rfl, -⟩ := List.cons.inj heq
      have hparse := ht'.2
      rw [hvoid.2] at hparse
      exact hne (Except.ok.inj hparse).symm

/-- The first line does not start with `ret void` and go on, nor does another one. -/
def Whole (l : List Token) : Prop := ¬GoesOn l ∧ Unbroken l

theorem Whole.newline {nl : Token} (hnl : nl.IsMark '\n') (h : Whole l) : Whole (nl :: l) :=
  ⟨not_goesOn_of_mark hnl, fun _ => h.1, h.2⟩

theorem Whole.lines {is : List InstrSyntax} (hl : IsLines l is) (h : Whole r) : Whole (l ++ r) := by
  induction hl with
  | done => exact h
  | empty hnl _ ih => exact ih.newline hnl
  | instr hi hnl _ ih =>
    rw [List.append_assoc, List.cons_append]
    exact ⟨not_goesOn_of_isInstr hi hnl, unbroken_append (not_newline_of_isInstr hi) (ih.newline hnl).2⟩

theorem Whole.body {bs : List BlockSyntax} (hl : IsBody l bs) (h : Whole r) : Whole (l ++ r) := by
  induction hl with
  | done => exact h
  | empty hnl _ ih => exact ih.newline hnl
  | @block l l' n colon is bs hn hcolon his _ ih =>
    have hrest : Unbroken (l ++ l' ++ r) := by
      rw [List.append_assoc]
      exact (ih.lines his).2
    refine ⟨?_, unbroken_cons (not_newline_of_isName hn)
      (unbroken_cons (not_newline_of_kind hcolon (by decide)) hrest)⟩
    -- A label has a colon where a return has its type.
    rintro ⟨w, v, t, r', heq, -, hvoid, -⟩
    obtain ⟨-, hrest⟩ := List.cons.inj heq
    obtain ⟨rfl, -⟩ := List.cons.inj hrest
    exact not_isWord_of_mark hcolon hvoid

theorem Whole.func {fn : FuncSyntax} (hl : IsFunc l fn) (h : Unbroken r) : Whole (l ++ r) := by
  obtain @⟨w, m, n, opening, closing, left, right, ps, result, body, params, ret, blocks, hw, hm, hn,
    hopening, hparams, hclosing, hret, hleft, hbody, hright⟩ := hl
  have hbrace : Whole (right :: r) :=
    ⟨not_goesOn_of_mark hright, unbroken_cons (not_newline_of_kind hright (by decide)) h⟩
  have hresult : Unbroken (result ++ left :: (body ++ right :: r)) :=
    unbroken_append (not_newline_of_isResult hret)
      (unbroken_cons (not_newline_of_kind hleft (by decide)) (hbrace.body hbody).2)
  have hlist : Unbroken (ps ++ closing :: (result ++ left :: (body ++ right :: r))) :=
    unbroken_append (not_newline_of_separated hparams fun _ _ => not_newline_of_isParam)
      (unbroken_cons (not_newline_of_kind hclosing (by decide)) hresult)
  refine ⟨not_goesOn_of_first fun hret => absurd (hret.2.symm.trans hw.2) (by decide), ?_⟩
  simp only [List.cons_append, List.append_assoc, List.nil_append]
  exact unbroken_cons (not_newline_of_kind hw.1 (by decide))
    (unbroken_cons (not_newline_of_kind hm (by decide)) (unbroken_cons (not_newline_of_isName hn)
      (unbroken_cons (not_newline_of_kind hopening (by decide)) hlist)))

/-- **No line of a program goes on behind `ret void`.** -/
theorem whole_of_isProgram {s : ProgramSyntax} (h : IsProgram l s) : Whole l := by
  induction h with
  | done =>
    refine ⟨?_, trivial⟩
    rintro ⟨_, _, _, _, heq, -⟩
    cases heq
  | empty hnl _ ih => exact ih.newline hnl
  | global hg _ _ ih =>
    refine ⟨?_, unbroken_append (not_newline_of_isGlobal hg) ih.2⟩
    obtain ⟨hw, -⟩ := hg
    exact not_goesOn_of_first fun hret => absurd (hret.2.symm.trans hw.2) (by decide)
  | func hfn _ _ ih => exact .func hfn ih.2

/-- The tokens of pieces in the middle of others. -/
theorem exists_spelled_of_infix {ps qs : List Piece} (hqs : qs <:+: ps) (hl : Spelled ps l) :
    ∃ l₁ l₂ l₃, Spelled qs l₂ ∧ l = l₁ ++ (l₂ ++ l₃) := by
  obtain ⟨before, after, rfl⟩ := hqs
  rw [List.append_assoc, spelled_append] at hl
  obtain ⟨l₁, _, -, hrest, rfl⟩ := hl
  obtain ⟨l₂, l₃, h₂, -, rfl⟩ := spelled_append.mp hrest
  exact ⟨l₁, l₂, l₃, h₂, rfl⟩

theorem infix_intercalate {sep part : List Piece} {parts : List (List Piece)} (h : part ∈ parts) :
    part <:+: sep.intercalate parts := by
  induction parts with
  | nil => cases h
  | cons x parts ih =>
    cases parts with
    | nil =>
      rw [List.intercalate_singleton]
      exact ⟨[], [], by simp [List.mem_singleton.mp h]⟩
    | cons y parts =>
      rw [List.intercalate_cons_cons]
      rcases List.mem_cons.mp h with rfl | h
      · exact ⟨[], sep ++ sep.intercalate (y :: parts), by simp⟩
      · exact (ih h).trans ⟨x ++ sep, [], by simp⟩

/-- Every line of a block comes behind the end of another one. -/
theorem infix_lines {is : List InstrSyntax} {i : InstrSyntax} (hi : i ∈ is) :
    Piece.newline :: i.line <:+: .newline :: is.flatMap InstrSyntax.line := by
  induction is with
  | nil => cases hi
  | cons j is ih =>
    rw [List.flatMap_cons]
    rcases List.mem_cons.mp hi with rfl | hi
    · exact ⟨[], is.flatMap InstrSyntax.line, rfl⟩
    · exact (ih hi).trans ⟨.newline :: ([.blank, .blank, .blank, .blank] ++ j.pieces), [],
        by simp [InstrSyntax.line]⟩

theorem infix_program {s : ProgramSyntax} {fn : FuncSyntax} {b : BlockSyntax} {i : InstrSyntax}
    (hfn : fn ∈ s.funcs) (hb : b ∈ fn.blocks) (hi : i ∈ b.instrs) :
    Piece.newline :: i.line <:+: s.pieces := by
  have hblock : Piece.newline :: i.line <:+: b.pieces :=
    (infix_lines hi).trans ⟨[.name b.name, .mark ':'], [], by simp [BlockSyntax.pieces]⟩
  have hbody : b.pieces <:+: fn.blocks.flatMap BlockSyntax.pieces :=
    List.infix_of_mem_flatten (List.mem_map.mpr ⟨b, hb, rfl⟩)
  have hfunc : fn.blocks.flatMap BlockSyntax.pieces <:+: fn.pieces := by
    unfold FuncSyntax.pieces
    exact List.infix_append _ _ _
  have hpart : fn.pieces ∈ s.parts := by
    unfold ProgramSyntax.parts
    split
    · exact List.mem_map.mpr ⟨fn, hfn, rfl⟩
    · exact List.mem_cons_of_mem _ (List.mem_map.mpr ⟨fn, hfn, rfl⟩)
  exact (hblock.trans (hbody.trans hfunc)).trans
    ((infix_intercalate hpart).trans (List.prefix_append _ _).isInfix)

/-- A spelled return of a value without a type goes on behind `ret void`. -/
theorem goesOn_of_spelled {i : InstrSyntax} (hi : i.Writable) (hop : i.op = .ret) (hargs : i.args ≠ [])
    (helem : i.elem = .void) (hl : Spelled i.line l) : GoesOn (l ++ r) := by
  have hone : i.args.length = 1 := by
    cases hi.fits <;> simp_all
  rw [InstrSyntax.line, InstrSyntax.pieces_ret hop hargs, helem, hop] at hl
  simp only [List.cons_append, List.nil_append, spelled_blank, spelled_word, spelled_append] at hl
  obtain ⟨w, _, hw, ⟨v, _, hv, ⟨l'', l', hl'', -, rfl⟩, rfl⟩, rfl⟩ := hl
  obtain ⟨x, hx, -⟩ := exists_isOperand_of_args hone hl''
  have hnl := not_newline_of_isOperand hx
  cases l'' with
  | nil => cases hx
  | cons t l'' => exact ⟨w, v, t, l'' ++ l' ++ r, by simp, hw, hv, hnl t List.mem_cons_self⟩

/-- **A spelled program is not read if a value without a type is returned.** -/
theorem ProgramSyntax.Writable.elem_ne_void {s s' : ProgramSyntax} (hs : s.Writable) (hl : Spelled s.pieces l)
    (h : IsProgram l s') : ∀ fn ∈ s.funcs, ∀ b ∈ fn.blocks, ∀ i ∈ b.instrs, i.op = .ret → i.args ≠ [] →
      i.elem ≠ .void := by
  intro fn hfn b hb i hi hop hargs helem
  obtain ⟨l₁, _, l₃, hline, rfl⟩ := exists_spelled_of_infix (infix_program hfn hb hi) hl
  obtain ⟨nl, l₂, hnl, h₂, rfl⟩ := spelled_mark.mp hline
  have hwritable := (hs.funcs fn hfn).instrs b hb i hi
  exact (whole_of_isProgram h).2.of_append.1 hnl (goesOn_of_spelled hwritable hop hargs helem h₂)

end Lines

end Midend.Source
