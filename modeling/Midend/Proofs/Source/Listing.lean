import Midend.Program.Printer
import Midend.Proofs.Source.Spelling

/-!
# Listings

A program has a syntax: what its text says, without positions.  Names that the program does not give are
made up, and what depends on the types of operands is read off the program.  The text of a program spells
this syntax, piece by piece.

## Main definitions

* `InstrSyntax.pieces`, `FuncSyntax.pieces`, `ProgramSyntax.pieces`: how a syntax is spelled.
* `Program.listing`: the syntax of a program.

## Main results

* `Program.toList_text`: the text of a program spells its listing.
-/

namespace Midend

/-! ### Spelling a syntax -/

namespace Source

/-- The end of a line. -/
abbrev Piece.newline : Piece := .mark '\n'

/-- Items with commas between them. -/
def listed (items : List (List Piece)) : List Piece := [Piece.mark ',', .blank].intercalate items

/-- What an operand refers to, spelled. -/
def OperandForm.pieces : OperandForm → List Piece
  | .value n => [.mark '%', .name n]
  | .global n => [.mark '@', .name n]
  | .literal v =>
    if 0 ≤ v.toInt then [.number v.toInt.toNat] else [.mark '-', .number (-v.toInt).toNat]

namespace InstrSyntax

/-- The operands, spelled. -/
def argsPieces (i : InstrSyntax) : List Piece := listed (i.args.map fun a => a.form.pieces)

/-- The labels of the blocks to jump to, spelled. -/
def targetsPieces (i : InstrSyntax) : List Piece := listed (i.targets.map fun t => [.name t.name])

/-- The name of the result, if there is one. -/
def resultPieces (i : InstrSyntax) : List Piece :=
  if i.ty.isVoid then [] else [.mark '%', .name i.name, .blank, .mark '=', .blank]

/-- An instruction, spelled. -/
def pieces (i : InstrSyntax) : List Piece :=
  match i.op with
  | .alloca => i.resultPieces ++ [.word i.op.text, .blank, .word i.elem.text]
  | .load =>
    i.resultPieces ++ [.word i.op.text, .blank, .word i.ty.text, .mark ',', .blank] ++ i.argsPieces
  | .store => [.word i.op.text, .blank, .word i.elem.text, .blank] ++ i.argsPieces
  | .cmp => i.resultPieces ++ [.word i.op.text, .blank, .word i.elem.text, .blank] ++ i.argsPieces
  | .call =>
    i.resultPieces ++ [.word i.op.text, .blank, .word i.ty.text, .blank, .mark '@', .name i.callee,
      .mark '('] ++ i.argsPieces ++ [.mark ')']
  | .br => [.word i.op.text, .blank] ++ i.targetsPieces
  | .condbr =>
    [.word i.op.text, .blank] ++ i.argsPieces ++ [.mark ',', .blank] ++ i.targetsPieces
  | .ret =>
    if i.args.isEmpty then [.word "ret", .blank, .word "void"]
    else [.word "ret", .blank, .word i.elem.text, .blank] ++ i.argsPieces
  | _ => i.resultPieces ++ [.word i.op.text, .blank, .word i.ty.text, .blank] ++ i.argsPieces

section Pieces

variable {i : InstrSyntax}

theorem pieces_arith (h : i.op ∈ [.add, .sub, .mul, .div]) : i.pieces =
    i.resultPieces ++ .word i.op.text :: .blank :: .word i.ty.text :: .blank :: i.argsPieces := by
  simp only [List.mem_cons, List.not_mem_nil, or_false] at h
  rcases h with h | h | h | h <;> simp [pieces, h]

theorem pieces_cmp (h : i.op = .cmp) : i.pieces =
    i.resultPieces ++ .word i.op.text :: .blank :: .word i.elem.text :: .blank :: i.argsPieces := by
  simp [pieces, h]

theorem pieces_alloca (h : i.op = .alloca) : i.pieces =
    i.resultPieces ++ [.word i.op.text, .blank, .word i.elem.text] := by
  simp [pieces, h]

theorem pieces_load (h : i.op = .load) : i.pieces = i.resultPieces ++
    .word i.op.text :: .blank :: .word i.ty.text :: .mark ',' :: .blank :: i.argsPieces := by
  simp [pieces, h]

theorem pieces_store (h : i.op = .store) : i.pieces =
    .word i.op.text :: .blank :: .word i.elem.text :: .blank :: i.argsPieces := by
  simp [pieces, h]

theorem pieces_call (h : i.op = .call) : i.pieces = i.resultPieces ++
    .word i.op.text :: .blank :: .word i.ty.text :: .blank :: .mark '@' :: .name i.callee ::
      .mark '(' :: (i.argsPieces ++ [.mark ')']) := by
  simp [pieces, h]

theorem pieces_br (h : i.op = .br) : i.pieces = .word i.op.text :: .blank :: i.targetsPieces := by
  simp [pieces, h]

theorem pieces_condbr (h : i.op = .condbr) : i.pieces =
    .word i.op.text :: .blank :: (i.argsPieces ++ .mark ',' :: .blank :: i.targetsPieces) := by
  simp [pieces, h]

theorem pieces_retVoid (h : i.op = .ret) (hnone : i.args = []) : i.pieces =
    [.word i.op.text, .blank, .word Ty.void.text] := by
  simp [pieces, h, hnone, Opcode.text]
  rfl

theorem pieces_ret (h : i.op = .ret) (hsome : i.args ≠ []) : i.pieces =
    .word i.op.text :: .blank :: .word i.elem.text :: .blank :: i.argsPieces := by
  simp [pieces, h, hsome, Opcode.text]

end Pieces

/-- An instruction on a line of its own. -/
def line (i : InstrSyntax) : List Piece :=
  [.blank, .blank, .blank, .blank] ++ i.pieces ++ [.newline]

end InstrSyntax

/-- A block, spelled with the ends of its lines. -/
def BlockSyntax.pieces (b : BlockSyntax) : List Piece :=
  [.name b.name, .mark ':', .newline] ++ b.instrs.flatMap InstrSyntax.line

/-- A parameter, spelled. -/
def ParamSyntax.pieces (a : ParamSyntax) : List Piece :=
  [.mark '%', .name a.name, .mark ':', .blank, .word a.ty.text]

/-- The type of the result of a function, if there is one. -/
def FuncSyntax.retPieces (fn : FuncSyntax) : List Piece :=
  if fn.ret.isVoid then [] else [.blank, .mark ':', .blank, .word fn.ret.text]

/-- A function, spelled. -/
def FuncSyntax.pieces (fn : FuncSyntax) : List Piece :=
  [.word "func", .blank, .mark '@', .name fn.name, .mark '('] ++
    listed (fn.params.map ParamSyntax.pieces) ++ [.mark ')'] ++ fn.retPieces ++
    [.blank, .mark '\x7b', .newline] ++ fn.blocks.flatMap BlockSyntax.pieces ++ [.mark '\x7d']

/-- A global variable, spelled. -/
def GlobalSyntax.pieces (g : GlobalSyntax) : List Piece :=
  [.word "global", .blank, .mark '@', .name g.name, .blank, .mark ':', .blank, .word g.elem.text]

namespace ProgramSyntax

/-- The parts of a text: the global variables together, and every function. -/
def parts (s : ProgramSyntax) : List (List Piece) :=
  if s.globals.isEmpty then s.funcs.map FuncSyntax.pieces
  else [Piece.newline].intercalate (s.globals.map GlobalSyntax.pieces) :: s.funcs.map FuncSyntax.pieces

/-- A program, spelled: its parts, with blank lines in between. -/
def pieces (s : ProgramSyntax) : List Piece :=
  [Piece.newline, .newline].intercalate s.parts ++ [.newline]

end ProgramSyntax

end Source

/-! ### The syntax of a program -/

/-- The name of a result, or its number if it has none. -/
def Instr.givenName (i : Instr) : String := if i.name = "" then toString i.id else i.name

namespace Program

open Source

/-- What the name of a value says. -/
def formOf (p : Program) : Value → OperandForm
  | .const c => .literal (p.consts.get c).value
  | .global g => .global (p.globals.get g).name
  | .param a => .value (p.params.get a).name
  | .instr i => .value (p.instr i).givenName

/-- What the text of an instruction says. -/
def instrSyntax (p : Program) (id : InstrId) : InstrSyntax :=
  let i := p.instr id
  { pos := default, op := i.op, name := if i.ty.isVoid then "" else i.givenName, ty := i.ty,
    elem := if i.op = .ret then p.firstOperandType i else i.elem, callee := i.callee,
    args := i.operands.filterMap (·.map fun v => ⟨default, p.formOf v⟩),
    targets := i.targets.map fun b => ⟨default, (p.block b).name⟩ }

/-- What the text of a block says. -/
def blockSyntax (p : Program) (b : Block) : BlockSyntax :=
  { pos := default, name := b.name, instrs := b.instrs.map p.instrSyntax }

/-- What the text of a function says. -/
def funcSyntax (p : Program) (f : Func) : FuncSyntax :=
  { pos := default, name := f.name, ret := f.ret,
    params := f.params.map fun a => ⟨default, (p.params.get a).name, (p.params.get a).ty⟩,
    blocks := f.blocks.toList.map p.blockSyntax }

/-- What the text of a program says. -/
def listing (p : Program) : ProgramSyntax :=
  { globals := p.globals.cells.toList.map fun g => ⟨g.name, g.elem⟩,
    funcs := p.funcs.toList.map p.funcSyntax }

end Program

/-! ### Spelling in parts -/

namespace Source

variable {a : Piece} {ps qs : List Piece}

@[simp] theorem spell_nil : spell [] = [] := rfl

@[simp] theorem spell_cons : spell (a :: ps) = a.chars ++ spell ps := List.flatMap_cons

@[simp] theorem spell_append : spell (ps ++ qs) = spell ps ++ spell qs := List.flatMap_append

theorem spell_flatMap {α : Type} (l : List α) (f : α → List Piece) :
    spell (l.flatMap f) = l.flatMap fun a => spell (f a) := List.flatMap_assoc

theorem spell_intercalate (sep : List Piece) (l : List (List Piece)) :
    spell (sep.intercalate l) = (spell sep).intercalate (l.map spell) := by
  induction l with
  | nil => rfl
  | cons x l ih =>
    cases l with
    | nil => simp
    | cons y l => simpa [List.append_assoc] using ih

end Source

/-- Items with a separator between them, where one more item follows. -/
theorem intercalate_concat {α : Type} (sep x : List α) (l : List (List α)) :
    sep.intercalate (l ++ [x]) = l.flatMap (· ++ sep) ++ x := by
  induction l with
  | nil => simp
  | cons y l ih =>
    rw [List.cons_append, List.intercalate_cons_of_ne_nil (by simp), ih]
    simp

/-- Items with a separator behind each of them. -/
theorem intercalate_append_sep {α : Type} (sep x : List α) (l : List (List α)) :
    sep.intercalate (x :: l) ++ sep = (x :: l).flatMap (· ++ sep) := by
  induction l generalizing x with
  | nil => simp
  | cons y l ih =>
    rw [List.intercalate_cons_cons, List.append_assoc, ih]
    simp

/-! ### The text of a program -/

section Results

variable {ε α β γ : Type}

/-- What can be said about single results can be said about all of them. -/
theorem map_eq_of_mapM {f : α → Except ε β} {k : β → γ} {g : α → γ} {l : List α} {r : List β}
    (h : l.mapM f = .ok r) (hf : ∀ a b, f a = .ok b → k b = g a) : r.map k = l.map g := by
  induction l generalizing r with
  | nil =>
    cases h
    rfl
  | cons a l ih =>
    rw [List.mapM_cons] at h
    obtain ⟨b, hb, h⟩ := Source.exists_of_bind_ok h
    obtain ⟨bs, hbs, h⟩ := Source.exists_of_bind_ok h
    cases h
    rw [List.map_cons, List.map_cons, hf a b hb, ih hbs]

end Results

namespace Program

open Source

variable {p : Program}

theorem toString_eq_self (s : String) : toString s = s := rfl

theorem label_eq (i : Instr) : i.label = "%" ++ i.givenName := by
  unfold Instr.label Instr.givenName
  split <;> rfl

theorem toList_label (v : Value) : (p.label v).toList = spell (p.formOf v).pieces := by
  cases v with
  | const c =>
    change (toString (p.consts.get c).value.toInt).toList = spell (if _ then _ else _)
    rw [Int.toString_eq_repr, Int.repr_eq_if]
    split <;> simp [Piece.chars]
  | global g => simp [label, formOf, OperandForm.pieces, Piece.chars, toString_eq_self]
  | param a => simp [label, formOf, OperandForm.pieces, Piece.chars, toString_eq_self]
  | instr i =>
    simp [label, label_eq, formOf, OperandForm.pieces, Piece.chars]

theorem exists_of_operandsText {i : Instr} {t : String} (h : p.operandsText i = .ok t) :
    ∃ vs : List Value, i.operands = vs.map some ∧ t = ", ".intercalate (vs.map p.label) := by
  obtain ⟨names, hnames, htext⟩ := Source.exists_of_bind_ok h
  cases htext
  clear h
  suffices ∃ vs : List Value, i.operands = vs.map some ∧ names = vs.map p.label by
    obtain ⟨vs, hvs, rfl⟩ := this
    exact ⟨vs, hvs, rfl⟩
  generalize i.operands = l at hnames ⊢
  induction l generalizing names with
  | nil =>
    cases hnames
    exact ⟨[], rfl, rfl⟩
  | cons o l ih =>
    rw [List.mapM_cons] at hnames
    obtain ⟨n, hn, hnames⟩ := Source.exists_of_bind_ok hnames
    obtain ⟨ns, hns, hnames⟩ := Source.exists_of_bind_ok hnames
    cases hnames
    obtain ⟨vs, rfl, rfl⟩ := ih ns hns
    cases o with
    | none => cases hn
    | some v =>
      cases hn
      exact ⟨v :: vs, rfl, rfl⟩

theorem args_instrSyntax {id : InstrId} {vs : List Value} (hvs : (p.instr id).operands = vs.map some) :
    (p.instrSyntax id).args = vs.map fun v => ⟨default, p.formOf v⟩ := by
  simp [instrSyntax, hvs, List.filterMap_map, Function.comp_def]

/-- The parts of the text of an instruction spell the parts of its syntax. -/
theorem toList_operands {id : InstrId} {vs : List Value} (hvs : (p.instr id).operands = vs.map some) :
    (", ".intercalate (vs.map p.label)).toList = spell (p.instrSyntax id).argsPieces := by
  rw [InstrSyntax.argsPieces, args_instrSyntax hvs, listed, spell_intercalate, String.toList_intercalate]
  simp [Piece.chars, toList_label, Function.comp_def]

theorem toList_targets (id : InstrId) :
    (p.targetsText (p.instr id)).toList = spell (p.instrSyntax id).targetsPieces := by
  rw [InstrSyntax.targetsPieces, listed, spell_intercalate, targetsText, String.toList_intercalate]
  simp [Piece.chars, instrSyntax, Function.comp_def]

theorem toList_result (id : InstrId) :
    (if (p.instr id).ty.isVoid then "" else s!"{(p.instr id).label} = ").toList =
      spell (p.instrSyntax id).resultPieces := by
  unfold InstrSyntax.resultPieces
  cases hvoid : (p.instr id).ty.isVoid with
  | true => simp [instrSyntax, hvoid]
  | false =>
    simp [instrSyntax, hvoid, Piece.chars, toString_eq_self, label_eq]

/-- The text of an instruction spells its syntax. -/
theorem toList_instrText {id : InstrId} {t : String} (h : p.instrText id = .ok t) :
    t.toList = spell (p.instrSyntax id).pieces := by
  obtain ⟨ops, hops, htext⟩ := Source.exists_of_bind_ok h
  obtain ⟨vs, hvs, rfl⟩ := exists_of_operandsText hops
  have hargs := toList_operands hvs
  have htargets := toList_targets (p := p) id
  have hresult := toList_result (p := p) id
  have hempty : (p.instrSyntax id).args.isEmpty = (p.instr id).operands.isEmpty := by
    rw [args_instrSyntax hvs, hvs]
    simp
  have hop : (p.instrSyntax id).op = (p.instr id).op := rfl
  have hty : (p.instrSyntax id).ty = (p.instr id).ty := rfl
  have hcallee : (p.instrSyntax id).callee = (p.instr id).callee := rfl
  have helem : (p.instrSyntax id).elem =
    if (p.instr id).op = .ret then p.firstOperandType (p.instr id) else (p.instr id).elem := rfl
  unfold InstrSyntax.pieces
  dsimp only at htext
  rw [hop, hty, helem, hempty, hcallee]
  generalize (", ".intercalate (vs.map p.label)) = ops at *
  cases hopcode : (p.instr id).op
  case ret =>
    simp only [hopcode] at htext ⊢
    split at htext
    · next hnone =>
      cases htext
      simp [hnone, Piece.chars]
    · next hsome =>
      cases htext
      simp [hsome, Piece.chars, toString_eq_self, hargs]
  all_goals
    simp only [hopcode] at htext ⊢
    cases htext
    simp [Piece.chars, toString_eq_self, hargs, htargets, ← hresult]

/-- The text of a block, with the end of its last line, spells its syntax. -/
theorem toList_blockText {b : Block} {t : String} (h : p.blockText b = .ok t) :
    t.toList ++ ['\n'] = spell (p.blockSyntax b).pieces := by
  obtain ⟨lines, hlines, htext⟩ := Source.exists_of_bind_ok h
  cases htext
  have hinstrs : lines.map String.toList = b.instrs.map fun i => spell (p.instrSyntax i).pieces :=
    map_eq_of_mapM hlines fun _ _ => toList_instrText
  have hbody : (lines.map String.toList).flatMap ("    ".toList ++ · ++ ['\n']) =
      spell ((b.instrs.map p.instrSyntax).flatMap InstrSyntax.line) := by
    rw [hinstrs, spell_flatMap, List.flatMap_map, List.flatMap_map]
    simp [InstrSyntax.line, Piece.chars]
  have hsep : "\n".toList = ['\n'] := by simp
  rw [String.toList_intercalate, hsep, List.map_cons, intercalate_append_sep]
  simp only [BlockSyntax.pieces, blockSyntax, spell_append, ← hbody]
  simp [Piece.chars, toString_eq_self, List.flatMap_map]

theorem toList_params (f : Func) :
    (", ".intercalate (f.params.map fun a =>
      s!"{p.label (.param a)}: {(p.params.get a).ty.text}")).toList =
      spell (listed ((p.funcSyntax f).params.map ParamSyntax.pieces)) := by
  rw [listed, spell_intercalate, String.toList_intercalate]
  simp [funcSyntax, ParamSyntax.pieces, label, Piece.chars, toString_eq_self, Function.comp_def]

/-- The lines of a function: its head, its blocks, and the closing brace. -/
theorem toList_lines {f : Func} {params ret : String} {blocks : List String}
    (hparams : params.toList = spell (listed ((p.funcSyntax f).params.map ParamSyntax.pieces)))
    (hret : ret.toList = spell (p.funcSyntax f).retPieces)
    (hblocks : f.blocks.toList.mapM p.blockText = .ok blocks) :
    ("\n".intercalate (("func @" ++ f.name ++ "(" ++ params ++ ")" ++ ret ++ " \x7b") :: blocks ++
      ["\x7d"])).toList = spell (p.funcSyntax f).pieces := by
  have hbody : (blocks.map String.toList).flatMap (· ++ ['\n']) =
      spell ((f.blocks.toList.map p.blockSyntax).flatMap BlockSyntax.pieces) := by
    have hmap : blocks.map (fun t => t.toList ++ ['\n']) =
        f.blocks.toList.map fun b => spell (p.blockSyntax b).pieces :=
      map_eq_of_mapM hblocks fun _ _ => toList_blockText
    rw [spell_flatMap, List.flatMap_map, List.flatMap_map, List.flatMap_def, List.flatMap_def, hmap]
  have hsep : "\n".toList = ['\n'] := by simp
  rw [String.toList_intercalate, hsep, List.map_append, List.map_singleton, intercalate_concat,
    List.map_cons, List.flatMap_cons, hbody]
  simp [FuncSyntax.pieces, funcSyntax, Piece.chars, hparams, hret]

/-- The text of a function spells its syntax. -/
theorem toList_funcText {f : Func} {t : String} (h : p.funcText f = .ok t) :
    t.toList = spell (p.funcSyntax f).pieces := by
  have hret : ∀ n, ¬f.ret.isVoid = true → f.ret.name = .ok n →
      (" : " ++ n).toList = spell (p.funcSyntax f).retPieces := by
    intro n hvoid hn
    have htext : f.ret.text = n := by
      unfold Ty.name at hn
      unfold Ty.text
      cases hname : f.ret.name? with
      | none => simp [hname] at hn
      | some m =>
        rw [hname] at hn
        cases hn
        rfl
    simp [FuncSyntax.retPieces, funcSyntax, hvoid, htext, Piece.chars]
  dsimp only [funcText] at h
  split at h
  · next hvoid =>
    obtain ⟨_, hnone, hrest⟩ := Source.exists_of_bind_ok h
    cases hnone
    obtain ⟨blocks, hblocks, htext⟩ := Source.exists_of_bind_ok hrest
    cases htext
    refine toList_lines (toList_params f) ?_ hblocks
    simp [FuncSyntax.retPieces, funcSyntax, hvoid, toString_eq_self]
  · next hvoid =>
    obtain ⟨n, hn, hrest⟩ := Source.exists_of_bind_ok h
    obtain ⟨_, hsome, hrest'⟩ := Source.exists_of_bind_ok hrest
    cases hsome
    obtain ⟨blocks, hblocks, htext⟩ := Source.exists_of_bind_ok hrest'
    cases htext
    exact toList_lines (toList_params f) (hret n hvoid hn) hblocks

/-- **The text of a program spells its listing.** -/
theorem toList_text {t : String} (h : p.text = .ok t) : t.toList = spell p.listing.pieces := by
  obtain ⟨funcs, hfuncs, htext⟩ := Source.exists_of_bind_ok h
  cases htext
  have hparts : funcs.map String.toList = (p.listing.funcs.map FuncSyntax.pieces).map spell := by
    rw [listing, List.map_map, List.map_map]
    exact map_eq_of_mapM hfuncs fun _ _ => toList_funcText
  have hglobals : p.globalsText.toList =
      spell ([Piece.newline].intercalate (p.listing.globals.map GlobalSyntax.pieces)) := by
    rw [globalsText, String.toList_intercalate, spell_intercalate]
    simp [listing, GlobalSyntax.pieces, Piece.chars, toString_eq_self, Function.comp_def]
  have hnone : p.listing.globals.isEmpty = true ↔ p.globals.size = 0 := by
    simp [listing, Table.size]
  have hsep : "\n\n".toList = spell [Piece.newline, .newline] := by simp [Piece.chars]
  unfold ProgramSyntax.pieces ProgramSyntax.parts
  rw [String.toList_append, String.toList_intercalate, hsep, spell_append, spell_intercalate]
  by_cases hzero : p.globals.size = 0
  · rw [if_pos hzero, if_pos (hnone.mpr hzero), hparts]
    simp [Piece.chars]
  · rw [if_neg hzero, if_neg (mt hnone.mp hzero), List.map_cons, List.map_cons, hparts, hglobals]
    simp [Piece.chars]

end Program

end Midend
