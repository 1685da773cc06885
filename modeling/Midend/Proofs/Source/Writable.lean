import Midend.Proofs.Source.Listing

/-!
# What a text can say

Every syntax that is read from a text has names that can be written, types that have a name, and of each
instruction only the fields that its operation has.  Such a syntax can be spelled: the pieces of its
spelling do not run together, so that the scanner finds them again.

## Main definitions

* `InstrSyntax.Writable`, `ProgramSyntax.Writable`: what a text can say.
* `FuncSyntax.Explicit`: all results have names.

## Main results

* `writable_of_isProgram`: what a text says can be said.
* `ProgramSyntax.Writable.legible`: the spelling is legible.
-/

namespace Midend

/-- The name of the type is read as that type. -/
def Ty.Named (t : Ty) : Prop := Ty.parse t.text = .ok t

namespace Source

open Grammar

/-! ### What a text can say -/

/-- Names can be written. -/
def OperandForm.Writable : OperandForm → Prop
  | .value n => IsNameText n
  | .global n => IsNameText n
  | .literal _ => True

/-- The fields of an instruction are those that its operation has. -/
inductive InstrSyntax.Fits (i : InstrSyntax) : Prop where
  | arith : i.op ∈ [.add, .sub, .mul, .div] → i.elem = .void → i.callee = "" → i.args.length = 2 →
      i.targets = [] → Fits i
  | cmp : i.op = .cmp → i.ty = .i1 → i.callee = "" → i.args.length = 2 → i.targets = [] → Fits i
  | alloca : i.op = .alloca → i.ty = .ptr → i.callee = "" → i.args = [] → i.targets = [] → Fits i
  | load : i.op = .load → i.elem = .void → i.callee = "" → i.args.length = 1 → i.targets = [] → Fits i
  | store : i.op = .store → i.ty = .void → i.callee = "" → i.args.length = 2 → i.targets = [] → Fits i
  | call : i.op = .call → i.elem = .void → IsNameText i.callee → i.targets = [] → Fits i
  | br : i.op = .br → i.ty = .void → i.elem = .void → i.callee = "" → i.args = [] →
      i.targets.length = 1 → Fits i
  | condbr : i.op = .condbr → i.ty = .void → i.elem = .void → i.callee = "" → i.args.length = 1 →
      i.targets.length = 2 → Fits i
  | retVoid : i.op = .ret → i.ty = .void → i.elem = .void → i.callee = "" → i.args = [] →
      i.targets = [] → Fits i
  | ret : i.op = .ret → i.ty = .void → i.callee = "" → i.args.length = 1 → i.targets = [] → Fits i

/-- A text can say the instruction. -/
structure InstrSyntax.Writable (i : InstrSyntax) : Prop where
  /-- It has the fields of its operation. -/
  fits : i.Fits
  /-- Only results are named. -/
  unnamed : i.ty = .void → i.name = ""
  /-- A name can be written. -/
  name : i.name ≠ "" → IsNameText i.name
  /-- The type of the result has a name. -/
  ty : i.ty.Named
  /-- The other type has a name. -/
  elem : i.elem.Named
  /-- The operands can be written. -/
  args : ∀ a ∈ i.args, a.form.Writable
  /-- The labels can be written. -/
  targets : ∀ t ∈ i.targets, IsNameText t.name

/-- A text can say the function. -/
structure FuncSyntax.Writable (fn : FuncSyntax) : Prop where
  /-- Its name can be written. -/
  name : IsNameText fn.name
  /-- The type of its result has a name. -/
  ret : fn.ret.Named
  /-- Its parameters can be written. -/
  params : ∀ a ∈ fn.params, IsNameText a.name ∧ a.ty.Named
  /-- Its labels can be written. -/
  labels : ∀ b ∈ fn.blocks, IsNameText b.name
  /-- Its instructions can be written. -/
  instrs : ∀ b ∈ fn.blocks, ∀ i ∈ b.instrs, i.Writable

/-- A text can say the program. -/
structure ProgramSyntax.Writable (s : ProgramSyntax) : Prop where
  /-- Its global variables can be written. -/
  globals : ∀ g ∈ s.globals, IsNameText g.name ∧ g.elem.Named
  /-- Its functions can be written. -/
  funcs : ∀ fn ∈ s.funcs, fn.Writable

/-! ### What texts say can be said -/

section Said

variable {l : List Token}

theorem Token.Proper.isNameText {t : Token} (ht : t.Proper) (hname : t.IsName) : IsNameText t.text := by
  unfold Token.Proper at ht
  rcases hname with hkind | hkind
  · rw [hkind] at ht
    exact .inl ht
  · rw [hkind] at ht
    exact .inr ht

/-- The types that have a name. -/
theorem mem_types_of_parse {text : String} {t : Ty} (h : Ty.parse text = .ok t) :
    t ∈ [Ty.void, .ptr, .int 1, .int 8, .int 16, .int 32, .int 64] := by
  rcases Parser.parse_cases h with ⟨-, rfl⟩ | ⟨-, rfl⟩ | ⟨n, hn, rfl⟩
  · simp
  · simp
  · simp only [Ty.widths, List.mem_cons, List.not_mem_nil, or_false] at hn
    rcases hn with rfl | rfl | rfl | rfl | rfl <;> decide

theorem named_of_mem {t : Ty} (ht : t ∈ [Ty.void, .ptr, .int 1, .int 8, .int 16, .int 32, .int 64]) :
    t.Named := by
  have hall : [Ty.void, .ptr, .int 1, .int 8, .int 16, .int 32, .int 64].all
      (fun t => (Ty.parse t.text).toOption == some t) = true := by
    decide
  have hparse := List.all_eq_true.mp hall t ht
  unfold Ty.Named
  cases hresult : Ty.parse t.text with
  | error e => simp [hresult, Except.toOption] at hparse
  | ok t' =>
    simp only [hresult, Except.toOption, beq_iff_eq, Option.some.injEq] at hparse
    rw [hparse]

theorem named_of_parse {text : String} {t : Ty} (h : Ty.parse text = .ok t) : t.Named :=
  named_of_mem (mem_types_of_parse h)

theorem named_void : Ty.void.Named := named_of_mem (by decide)

theorem named_i1 : Ty.i1.Named := named_of_mem (by decide)

theorem named_ptr : Ty.ptr.Named := named_of_mem (by decide)

theorem writable_of_isOperand {a : Operand} (h : IsOperand l a) (hl : ∀ t ∈ l, t.Proper) :
    a.form.Writable := by
  cases h with
  | value hm hn => exact (hl _ (by simp)).isNameText hn
  | global hm hn => exact (hl _ (by simp)).isNameText hn
  | literal ht hv => trivial
  | negative hm ht hv => trivial

theorem writable_of_isPair {args : List Operand} (h : IsPair l args) (hl : ∀ t ∈ l, t.Proper) :
    args.length = 2 ∧ ∀ a ∈ args, a.form.Writable := by
  obtain ⟨hx, hcomma, hy⟩ := h
  refine ⟨rfl, ?_⟩
  simp only [List.mem_append, List.mem_cons] at hl
  simp only [List.forall_mem_cons, List.not_mem_nil, false_implies, implies_true, and_true]
  exact ⟨writable_of_isOperand hx fun t ht => hl t (.inl ht),
    writable_of_isOperand hy fun t ht => hl t (.inr (.inr ht))⟩

/-- What holds of items on proper tokens holds of all items of a list. -/
theorem forall_of_separated {α : Type} {Item : List Token → α → Prop} {P : α → Prop} {as : List α}
    (h : Separated Item l as) (hl : ∀ t ∈ l, t.Proper)
    (hitem : ∀ l a, Item l a → (∀ t ∈ l, t.Proper) → P a) : ∀ a ∈ as, P a := by
  induction h with
  | none => exact fun a ha => absurd ha List.not_mem_nil
  | last ha =>
    rw [List.forall_mem_singleton]
    exact hitem _ _ ha hl
  | more ha hcomma has ih =>
    simp only [List.mem_append, List.mem_cons] at hl
    rw [List.forall_mem_cons]
    exact ⟨hitem _ _ ha fun t ht => hl t (.inl ht), ih fun t ht => hl t (.inr (.inr ht))⟩

/-- What follows an operation can be written. -/
theorem writable_of_completes {pos : Position} {op : Opcode} {name : String} {i : InstrSyntax}
    (h : Completes { pos := pos, op := op, name := name } l i) (hl : ∀ t ∈ l, t.Proper)
    (hname : name ≠ "" → IsNameText name) (hvoid : i.ty = .void → name = "") : i.Writable := by
  cases h with
  | arith hop ht hargs =>
    rw [List.forall_mem_cons] at hl
    obtain ⟨hlength, hwritable⟩ := writable_of_isPair hargs hl.2
    exact ⟨.arith hop rfl rfl hlength rfl, hvoid, hname, named_of_parse ht.2, named_void, hwritable,
      by simp⟩
  | cmp hop ht hargs =>
    rw [List.forall_mem_cons] at hl
    obtain ⟨hlength, hwritable⟩ := writable_of_isPair hargs hl.2
    exact ⟨.cmp hop rfl rfl hlength rfl, hvoid, hname, named_i1, named_of_parse ht.2,
      hwritable, by simp⟩
  | alloca hop ht =>
    exact ⟨.alloca hop rfl rfl rfl rfl, hvoid, hname, named_ptr, named_of_parse ht.2,
      by simp, by simp⟩
  | load hop ht hcomma hx =>
    simp only [List.forall_mem_cons] at hl
    exact ⟨.load hop rfl rfl rfl rfl, hvoid, hname, named_of_parse ht.2, named_void,
      by simpa using writable_of_isOperand hx hl.2.2, by simp⟩
  | store hop ht hargs =>
    rw [List.forall_mem_cons] at hl
    obtain ⟨hlength, hwritable⟩ := writable_of_isPair hargs hl.2
    exact ⟨.store hop rfl rfl hlength rfl, hvoid, hname, named_void, named_of_parse ht.2, hwritable,
      by simp⟩
  | call hop ht hm hn hopen hargs hclose =>
    simp only [List.forall_mem_cons, List.forall_mem_append] at hl
    exact ⟨.call hop rfl (hl.2.2.1.isNameText hn) rfl, hvoid, hname, named_of_parse ht.2, named_void,
      forall_of_separated hargs hl.2.2.2.2.1 fun _ _ => writable_of_isOperand, by simp⟩
  | br hop hn =>
    exact ⟨.br hop rfl rfl rfl rfl rfl, hvoid, hname, named_void, named_void, by simp,
      by simpa using (hl _ (by simp)).isNameText hn⟩
  | condbr hop hx hcomma hyes hcomma' hno =>
    simp only [List.forall_mem_append, List.forall_mem_cons] at hl
    exact ⟨.condbr hop rfl rfl rfl rfl rfl, hvoid, hname, named_void, named_void,
      by simpa using writable_of_isOperand hx hl.1,
      by simpa using ⟨hl.2.2.1.isNameText hyes, hl.2.2.2.2.1.isNameText hno⟩⟩
  | retVoid hop ht =>
    exact ⟨.retVoid hop rfl rfl rfl rfl rfl, hvoid, hname, named_void, named_void, by simp, by simp⟩
  | ret hop ht hne hx =>
    rw [List.forall_mem_cons] at hl
    exact ⟨.ret hop rfl rfl rfl rfl, hvoid, hname, named_void, named_of_parse ht.2,
      by simpa using writable_of_isOperand hx hl.2, by simp⟩

theorem writable_of_isInstr {i : InstrSyntax} (h : IsInstr l i) (hl : ∀ t ∈ l, t.Proper) : i.Writable := by
  cases h with
  | plain hw hi =>
    rw [List.forall_mem_cons] at hl
    exact writable_of_completes hi hl.2 (fun hne => absurd rfl hne) fun _ => rfl
  | named hm hn heq hw hi hty =>
    simp only [List.forall_mem_cons] at hl
    exact writable_of_completes hi hl.2.2.2.2 (fun _ => hl.2.1.isNameText hn) fun hvoid => absurd hvoid hty

theorem writable_of_isLines {is : List InstrSyntax} (h : IsLines l is) (hl : ∀ t ∈ l, t.Proper) :
    ∀ i ∈ is, i.Writable := by
  induction h with
  | done => exact fun i hi => absurd hi List.not_mem_nil
  | empty hnl _ ih =>
    rw [List.forall_mem_cons] at hl
    exact ih hl.2
  | instr hi hnl _ ih =>
    simp only [List.forall_mem_append, List.forall_mem_cons] at hl
    rw [List.forall_mem_cons]
    exact ⟨writable_of_isInstr hi hl.1, ih hl.2.2⟩

theorem writable_of_isBody {bs : List BlockSyntax} (h : IsBody l bs) (hl : ∀ t ∈ l, t.Proper) :
    ∀ b ∈ bs, IsNameText b.name ∧ ∀ i ∈ b.instrs, i.Writable := by
  induction h with
  | done => exact fun b hb => absurd hb List.not_mem_nil
  | empty hnl _ ih =>
    rw [List.forall_mem_cons] at hl
    exact ih hl.2
  | block hn hcolon his _ ih =>
    simp only [List.forall_mem_append, List.forall_mem_cons] at hl
    rw [List.forall_mem_cons]
    exact ⟨⟨hl.1.isNameText hn, writable_of_isLines his hl.2.2.1⟩, ih hl.2.2.2⟩

theorem writable_of_isFunc {fn : FuncSyntax} (h : IsFunc l fn) (hl : ∀ t ∈ l, t.Proper) :
    fn.Writable := by
  obtain ⟨hw, hm, hn, hopen, hparams, hclose, hret, hleft, hbody, hright⟩ := h
  simp only [List.forall_mem_cons, List.forall_mem_append] at hl
  have hblocks := writable_of_isBody hbody hl.2.2.2.2.2.2.2.2.1
  refine ⟨hl.2.2.1.isNameText hn, ?_, forall_of_separated hparams hl.2.2.2.2.1 ?_,
    fun b hb => (hblocks b hb).1, fun b hb => (hblocks b hb).2⟩
  · cases hret with
    | none => exact named_void
    | some hcolon ht => exact named_of_parse ht.2
  · rintro l a ⟨hm, hn, hcolon, ht⟩ hl
    exact ⟨(hl _ (by simp)).isNameText hn, named_of_parse ht.2⟩

/-- **What a text says can be said.** -/
theorem writable_of_isProgram {s : ProgramSyntax} (h : IsProgram l s) (hl : ∀ t ∈ l, t.Proper) :
    s.Writable := by
  induction h with
  | done => exact ⟨fun g hg => absurd hg List.not_mem_nil, fun fn hfn => absurd hfn List.not_mem_nil⟩
  | empty hnl _ ih =>
    rw [List.forall_mem_cons] at hl
    exact ih hl.2
  | global hg hend _ ih =>
    rw [List.forall_mem_append] at hl
    obtain ⟨hglobals, hfuncs⟩ := ih hl.2
    obtain ⟨hw, hm, hn, hcolon, ht⟩ := hg
    refine ⟨?_, hfuncs⟩
    rw [List.forall_mem_cons]
    exact ⟨⟨(hl.1 _ (by simp)).isNameText hn, named_of_parse ht.2⟩, hglobals⟩
  | func hfn hend _ ih =>
    rw [List.forall_mem_append] at hl
    obtain ⟨hglobals, hfuncs⟩ := ih hl.2
    refine ⟨hglobals, ?_⟩
    rw [List.forall_mem_cons]
    exact ⟨writable_of_isFunc hfn hl.1, hfuncs⟩

end Said

/-! ### Spellings are legible -/

section Legible

variable {ps : List Piece}

@[simp] theorem legible_nil : Legible [] := trivial

@[simp] theorem legible_blank : Legible (.blank :: ps) ↔ Legible ps := by
  simp [Legible, Piece.Proper, Piece.isOpen]

@[simp] theorem legible_mark {c : Char} : Legible (.mark c :: ps) ↔ c ∈ marks ∧ Legible ps := by
  simp [Legible, Piece.Proper, Piece.isOpen]

/-- A piece that goes on as long as letters and digits follow, and what does not continue it. -/
theorem legible_open {a b : Piece} (ha : a.isOpen = true) (hb : b.isOpen = false) :
    Legible (a :: b :: ps) ↔ a.Proper ∧ Legible (b :: ps) := by
  simp [Legible, ha, hb]

theorem legible_singleton {a : Piece} : Legible [a] ↔ a.Proper := by
  simp [Legible]

theorem isWordText_of {w : String}
    (h : (w.toList.head?.any startsWord && w.toList.tail.all continuesWord) = true) :
    IsWordText w.toList := by
  cases htext : w.toList with
  | nil => simp [htext] at h
  | cons c cs =>
    simp only [htext, List.head?_cons, Option.any_some, List.tail_cons, Bool.and_eq_true] at h
    exact .mk h.1 h.2

theorem proper_type {t : Ty} (ht : t.Named) : (Piece.word t.text).Proper := by
  have hall : [Ty.void, .ptr, .int 1, .int 8, .int 16, .int 32, .int 64].all (fun t =>
      t.text.toList.head?.any startsWord && t.text.toList.tail.all continuesWord) = true := by
    decide
  exact isWordText_of (List.all_eq_true.mp hall t (mem_types_of_parse ht))

theorem proper_opcode {op : Opcode} (hop : op ∈ Opcode.named) : (Piece.word op.text).Proper := by
  have hall : Opcode.named.all (fun op =>
      op.text.toList.head?.any startsWord && op.text.toList.tail.all continuesWord) = true := by
    decide
  exact isWordText_of (List.all_eq_true.mp hall op hop)

theorem OperandForm.Writable.legible {form : OperandForm} (h : form.Writable) : Legible form.pieces := by
  cases form with
  | value n => exact legible_mark.mpr ⟨by decide, legible_singleton.mpr h⟩
  | global n => exact legible_mark.mpr ⟨by decide, legible_singleton.mpr h⟩
  | literal v =>
    change Legible (if 0 ≤ v.toInt then [.number _] else [.mark '-', .number _])
    split
    · exact legible_singleton.mpr trivial
    · exact legible_mark.mpr ⟨by decide, legible_singleton.mpr trivial⟩

/-- Items do not run together across blanks and marks. -/
theorem legible_intercalate {a : Piece} {sep : List Piece} {items : List (List Piece)}
    (ha : a.isOpen = false) (hsep : Legible (a :: sep)) (hclosed : ∀ b ∈ sep, b.isOpen = false)
    (h : ∀ item ∈ items, Legible item) : Legible ((a :: sep).intercalate items) := by
  have happend : ∀ (sep : List Piece) {ps : List Piece}, (∀ b ∈ sep, b.isOpen = false) → Legible sep →
      Legible ps → Legible (sep ++ ps) := by
    intro sep ps hclosed hsep hps
    induction sep with
    | nil => exact hps
    | cons b sep ih =>
      rw [List.forall_mem_cons] at hclosed
      change Legible ([] ++ b :: (sep ++ ps))
      exact (legible_append_cons hclosed.1).mpr ⟨trivial, hsep.1, ih hclosed.2 hsep.2.2⟩
  induction items with
  | nil => trivial
  | cons x items ih =>
    rw [List.forall_mem_cons] at h
    cases items with
    | nil => simpa using h.1
    | cons y items =>
      rw [List.intercalate_cons_cons, List.append_assoc, List.cons_append]
      exact (legible_append_cons ha).mpr ⟨h.1, hsep.1, happend sep hclosed hsep.2.2 (ih h.2)⟩

theorem legible_listed {items : List (List Piece)} (h : ∀ item ∈ items, Legible item) :
    Legible (listed items) := by
  have hcomma : ',' ∈ marks := by decide
  exact legible_intercalate rfl (by simpa using hcomma) (by simp [Piece.isOpen]) h

theorem legible_word_blank {w : String} (hw : (Piece.word w).Proper) :
    Legible (.word w :: .blank :: ps) ↔ Legible ps := by
  rw [legible_open rfl rfl, legible_blank, and_iff_right hw]

section Instr

variable {i : InstrSyntax} (hi : i.Writable)
include hi

theorem InstrSyntax.Writable.isVoid_iff : i.ty.isVoid = true ↔ i.ty = .void :=
  Parser.isVoid_iff_of_parse hi.ty

theorem InstrSyntax.Writable.mem_named : i.op ∈ Opcode.named := by
  cases hi.fits with
  | arith hop =>
    simp only [List.mem_cons, List.not_mem_nil, or_false] at hop
    rcases hop with hop | hop | hop | hop <;> rw [hop] <;> decide
  | _ hop => rw [hop]; decide

theorem InstrSyntax.Writable.legible_args : Legible i.argsPieces := by
  refine legible_listed fun item hitem => ?_
  obtain ⟨a, ha, rfl⟩ := List.mem_map.mp hitem
  exact (hi.args a ha).legible

theorem InstrSyntax.Writable.legible_targets : Legible i.targetsPieces := by
  refine legible_listed fun item hitem => ?_
  obtain ⟨t, ht, rfl⟩ := List.mem_map.mp hitem
  exact legible_singleton.mpr (hi.targets t ht)

theorem InstrSyntax.Writable.legible_result (hresult : i.ty ≠ .void → i.name ≠ "")
    (hps : Legible ps) : Legible (i.resultPieces ++ ps) := by
  unfold InstrSyntax.resultPieces
  split
  · exact hps
  · next hvoid =>
    have hname : (Piece.name i.name).Proper := hi.name (hresult (mt hi.isVoid_iff.mpr hvoid))
    have hpercent : '%' ∈ marks := by decide
    have hequal : '=' ∈ marks := by decide
    simpa [legible_open (a := .name i.name) (b := .blank) rfl rfl, hname, hpercent, hequal] using hps

/-- **An instruction is spelled legibly**, if its result has a name. -/
theorem InstrSyntax.Writable.legible (hresult : i.ty ≠ .void → i.name ≠ "") : Legible i.pieces := by
  have hop := proper_opcode hi.mem_named
  have hty := proper_type hi.ty
  have helem := proper_type hi.elem
  have hargs := hi.legible_args
  have htargets := hi.legible_targets
  cases hi.fits with
  | arith h =>
    rw [InstrSyntax.pieces_arith h]
    exact hi.legible_result hresult ((legible_word_blank hop).mpr ((legible_word_blank hty).mpr hargs))
  | cmp h =>
    rw [InstrSyntax.pieces_cmp h]
    exact hi.legible_result hresult ((legible_word_blank hop).mpr ((legible_word_blank helem).mpr hargs))
  | alloca h =>
    rw [InstrSyntax.pieces_alloca h]
    exact hi.legible_result hresult ((legible_word_blank hop).mpr (legible_singleton.mpr helem))
  | load h =>
    have hcomma : ',' ∈ marks := by decide
    rw [InstrSyntax.pieces_load h]
    exact hi.legible_result hresult ((legible_word_blank hop).mpr ((legible_open rfl rfl).mpr
      ⟨hty, legible_mark.mpr ⟨hcomma, legible_blank.mpr hargs⟩⟩))
  | store h =>
    rw [InstrSyntax.pieces_store h]
    exact (legible_word_blank hop).mpr ((legible_word_blank helem).mpr hargs)
  | call h _ hcallee =>
    have hat : '@' ∈ marks := by decide
    have hleft : '(' ∈ marks := by decide
    have hright : (Piece.mark ')').Proper := show ')' ∈ marks by decide
    have hname : (Piece.name i.callee).Proper := hcallee
    have hlist : Legible (i.argsPieces ++ [.mark ')']) :=
      (legible_append_cons rfl).mpr ⟨hargs, hright, trivial⟩
    rw [InstrSyntax.pieces_call h]
    exact hi.legible_result hresult ((legible_word_blank hop).mpr ((legible_word_blank hty).mpr
      (legible_mark.mpr ⟨hat, (legible_open rfl rfl).mpr ⟨hname, legible_mark.mpr ⟨hleft, hlist⟩⟩⟩)))
  | br h =>
    rw [InstrSyntax.pieces_br h]
    exact (legible_word_blank hop).mpr htargets
  | condbr h =>
    have hcomma : (Piece.mark ',').Proper := show ',' ∈ marks by decide
    rw [InstrSyntax.pieces_condbr h]
    exact (legible_word_blank hop).mpr
      ((legible_append_cons rfl).mpr ⟨hargs, hcomma, legible_blank.mpr htargets⟩)
  | retVoid h _ _ _ hnone =>
    rw [InstrSyntax.pieces_retVoid h hnone]
    exact (legible_word_blank hop).mpr (legible_singleton.mpr (proper_type named_void))
  | ret h _ _ hone =>
    rw [InstrSyntax.pieces_ret h (List.ne_nil_of_length_eq_add_one hone)]
    exact (legible_word_blank hop).mpr ((legible_word_blank helem).mpr hargs)

end Instr

theorem legible_flatMap {α : Type} {l : List α} {f : α → List Piece}
    (hf : ∀ a ∈ l, ∀ qs, Legible qs → Legible (f a ++ qs)) (hps : Legible ps) :
    Legible (l.flatMap f ++ ps) := by
  induction l with
  | nil => exact hps
  | cons a l ih =>
    rw [List.forall_mem_cons] at hf
    rw [List.flatMap_cons, List.append_assoc]
    exact hf.1 _ (ih hf.2)

/-- The results of all instructions have names. -/
def FuncSyntax.Explicit (fn : FuncSyntax) : Prop :=
  ∀ b ∈ fn.blocks, ∀ i ∈ b.instrs, i.ty ≠ .void → i.name ≠ ""

theorem legible_block {b : BlockSyntax} (hname : IsNameText b.name) (hinstrs : ∀ i ∈ b.instrs, i.Writable)
    (hresult : ∀ i ∈ b.instrs, i.ty ≠ .void → i.name ≠ "") (hps : Legible ps) :
    Legible (b.pieces ++ ps) := by
  have hline : '\n' ∈ marks := by decide
  have hcolon : ':' ∈ marks := by decide
  have hlabel : (Piece.name b.name).Proper := hname
  have hbody : Legible (b.instrs.flatMap InstrSyntax.line ++ ps) := by
    refine legible_flatMap (fun i hi qs hqs => ?_) hps
    rw [InstrSyntax.line, List.append_assoc, List.append_assoc]
    simp only [List.cons_append, List.nil_append, legible_blank]
    exact (legible_append_cons rfl).mpr ⟨(hinstrs i hi).legible (hresult i hi), hline, hqs⟩
  rw [BlockSyntax.pieces, List.append_assoc]
  exact (legible_open rfl rfl).mpr ⟨hlabel, legible_mark.mpr ⟨hcolon, legible_mark.mpr ⟨hline, hbody⟩⟩⟩

theorem legible_param {a : ParamSyntax} (hname : IsNameText a.name) (hty : a.ty.Named) :
    Legible a.pieces := by
  have hproper : (Piece.name a.name).Proper := hname
  exact legible_mark.mpr ⟨by decide, (legible_open rfl rfl).mpr ⟨hproper, legible_mark.mpr ⟨by decide,
    legible_blank.mpr (legible_singleton.mpr (proper_type hty))⟩⟩⟩

theorem FuncSyntax.Writable.legible {fn : FuncSyntax} (h : fn.Writable) (hresult : fn.Explicit) :
    Legible fn.pieces := by
  have hfunc : (Piece.word "func").Proper := isWordText_of (by decide)
  have hname : (Piece.name fn.name).Proper := h.name
  have hclose : (Piece.mark ')').Proper := show ')' ∈ marks by decide
  have hparams : Legible (listed (fn.params.map ParamSyntax.pieces)) := by
    refine legible_listed fun item hitem => ?_
    obtain ⟨a, ha, rfl⟩ := List.mem_map.mp hitem
    exact legible_param (h.params a ha).1 (h.params a ha).2
  have hblocks : Legible (fn.blocks.flatMap BlockSyntax.pieces ++ [.mark '\x7d']) :=
    legible_flatMap (fun b hb _ => legible_block (h.labels b hb) (h.instrs b hb) (hresult b hb))
      (legible_mark.mpr ⟨by decide, trivial⟩)
  have hret : Legible (fn.retPieces ++ .blank :: .mark '\x7b' :: .newline ::
      (fn.blocks.flatMap BlockSyntax.pieces ++ [.mark '\x7d'])) := by
    have hbody := legible_blank.mpr (legible_mark.mpr ⟨(by decide : '\x7b' ∈ marks),
      legible_mark.mpr ⟨(by decide : '\n' ∈ marks), hblocks⟩⟩)
    unfold FuncSyntax.retPieces
    split
    · exact hbody
    · exact legible_blank.mpr (legible_mark.mpr ⟨by decide, legible_blank.mpr ((legible_open rfl rfl).mpr
        ⟨proper_type h.ret, hbody⟩)⟩)
  simp only [FuncSyntax.pieces, List.append_assoc, List.cons_append, List.nil_append]
  exact (legible_word_blank hfunc).mpr (legible_mark.mpr ⟨by decide, (legible_open rfl rfl).mpr ⟨hname,
    legible_mark.mpr ⟨by decide, (legible_append_cons rfl).mpr ⟨hparams, hclose, hret⟩⟩⟩⟩)

theorem legible_global {g : GlobalSyntax} (hname : IsNameText g.name) (helem : g.elem.Named) :
    Legible g.pieces := by
  have hglobal : (Piece.word "global").Proper := isWordText_of (by decide)
  have hproper : (Piece.name g.name).Proper := hname
  exact (legible_word_blank hglobal).mpr (legible_mark.mpr ⟨by decide, (legible_open rfl rfl).mpr
    ⟨hproper, legible_blank.mpr (legible_mark.mpr ⟨by decide, legible_blank.mpr
      (legible_singleton.mpr (proper_type helem))⟩)⟩⟩)

/-- **A program is spelled legibly**, if all results have names. -/
theorem ProgramSyntax.Writable.legible {s : ProgramSyntax} (h : s.Writable)
    (hresult : ∀ fn ∈ s.funcs, fn.Explicit) : Legible s.pieces := by
  have hline : (Piece.newline).Proper := show '\n' ∈ marks by decide
  have hfuncs : ∀ part ∈ s.funcs.map FuncSyntax.pieces, Legible part := by
    rw [List.forall_mem_map]
    exact fun fn hfn => (h.funcs fn hfn).legible (hresult fn hfn)
  have hglobals : Legible ([Piece.newline].intercalate (s.globals.map GlobalSyntax.pieces)) := by
    refine legible_intercalate rfl (legible_singleton.mpr hline) (by simp) ?_
    rw [List.forall_mem_map]
    exact fun g hg => legible_global (h.globals g hg).1 (h.globals g hg).2
  have hparts : ∀ part ∈ s.parts, Legible part := by
    unfold ProgramSyntax.parts
    split
    · exact hfuncs
    · exact List.forall_mem_cons.mpr ⟨hglobals, hfuncs⟩
  refine (legible_append_cons rfl).mpr ⟨legible_intercalate rfl ?_ ?_ hparts, hline, trivial⟩
  · exact legible_mark.mpr ⟨by decide, legible_mark.mpr ⟨by decide, trivial⟩⟩
  · simp [Piece.isOpen]

end Legible

end Source

end Midend
