import Midend.Proofs.Flow.ControlGraph
import Midend.Proofs.Source.AcceptedTexts

/-!
# The shape of accepted programs

What the passes take for granted of a program holds of the program of every accepted text: the verifier
finds nothing, operations have their operands and targets, blocks and instructions are numbered in the
order of the text, and integers are cut down to their types.

## Main definitions

* `Opcode.Takes`: how many operands and targets an operation has.
* `Program.Regular`: what is taken for granted.
* `Program.Conveys`: an instruction is what the text says.

## Main results

* `Ty.wrap_wrap`: what is cut down stays as it is.
* `takes_of_isInstr`: the operands and targets of instructions in the text.
* `parse_regular`: the program of an accepted text is regular.
-/

namespace Midend

open Source Source.Grammar

/-! ### What holds of the program of an accepted text -/

/-- The operation goes with that many operands and targets. -/
def Opcode.Takes (op : Opcode) (operands targets : Nat) : Prop :=
  match op with
  | .add | .sub | .mul | .div | .cmp | .store => operands = 2 ∧ targets = 0
  | .load => operands = 1 ∧ targets = 0
  | .alloca => operands = 0 ∧ targets = 0
  | .call => targets = 0
  | .br => operands = 0 ∧ targets = 1
  | .condbr => operands = 1 ∧ targets = 2
  | .ret => operands ≤ 1 ∧ targets = 0
  | .invalid | .unknown _ => False

/-- What is taken for granted of a program before it is changed. -/
structure Program.Regular (p : Program) : Prop where
  /-- The verifier finds nothing. -/
  verified : p.verify = []
  /-- Instructions have the operands and targets of their operations. -/
  shaped : ∀ f, ∀ i ∈ p.funcInstrs f,
    (p.instr i).op.Takes (p.instr i).operands.length (p.instr i).targets.length
  /-- Operands are there, and none is an instruction without a result. -/
  operands : ∀ f, ∀ i ∈ p.funcInstrs f, ∀ v ∈ (p.instr i).operands,
    ∃ w, v = some w ∧ ∀ d, w = .instr d → (p.instr d).ty.isVoid = false
  /-- Jumps lead to blocks of the function. -/
  targets : ∀ f, ∀ i ∈ p.funcInstrs f, ∀ b ∈ (p.instr i).targets, b ∈ p.blockRefs f
  /-- A block is numbered by its position, and known by it to its instructions and by its label. -/
  positions : ∀ f k b, (p.func f).blocks[k]? = some b → b.id = k ∧
    p.findBlock? f b.name = some ⟨f, k⟩ ∧ ∀ i ∈ b.instrs, (p.instr i).place = .inBlock ⟨f, k⟩
  /-- The instructions of a function are numbered from 1 on. -/
  numbers : ∀ f, (p.funcInstrs f).map (fun i => (p.instr i).id) =
    List.range' 1 (p.funcInstrs f).length
  /-- Constants are cut down to the width of their types. -/
  wrapped : ∀ f, ∀ i ∈ p.funcInstrs f, ∀ c, some (.const c) ∈ (p.instr i).operands →
    (p.consts.get c).ty.wrap (p.consts.get c).value = (p.consts.get c).value

/-- The instruction `id` is what the text says: its operation, its name and type, and its integers. -/
structure Program.Conveys (p : Program) (id : InstrId) (i : InstrSyntax) : Prop where
  /-- The operation is that of the text. -/
  op : (p.instr id).op = i.op
  /-- The name is that of the text. -/
  name : (p.instr id).name = i.name
  /-- The type is that of the text. -/
  ty : (p.instr id).ty = i.ty
  /-- An integer is a constant of its type. -/
  literals : ∀ k a x, i.args[k]? = some a → a.form = .literal x →
    ∃ c, (p.instr id).operands[k]? = some (some (.const c)) ∧
      p.consts.get c = ⟨i.literalType k, (i.literalType k).wrap x⟩

/-! ### The shape of instructions -/

section Shapes

variable {l : List Token}

theorem isInstr_of_isLines {is : List InstrSyntax} (h : IsLines l is) :
    ∀ i ∈ is, ∃ l', IsInstr l' i := by
  induction h with
  | done => simp
  | empty _ _ ih => exact ih
  | instr hi _ _ ih => exact List.forall_mem_cons.mpr ⟨⟨_, hi⟩, ih⟩

theorem isInstr_of_isBody {bs : List BlockSyntax} (h : IsBody l bs) :
    ∀ b ∈ bs, ∀ i ∈ b.instrs, ∃ l', IsInstr l' i := by
  induction h with
  | done => simp
  | empty _ _ ih => exact ih
  | block _ _ hlines _ ih => exact List.forall_mem_cons.mpr ⟨isInstr_of_isLines hlines, ih⟩

/-- The functions of a program consist of instructions. -/
theorem isInstr_of_isProgram {s : ProgramSyntax} (h : IsProgram l s) :
    ∀ fn ∈ s.funcs, ∀ i ∈ fn.instrs, ∃ l', IsInstr l' i := by
  induction h with
  | done => simp
  | empty _ _ ih => exact ih
  | global _ _ _ ih => exact ih
  | func hf _ _ ih =>
    refine List.forall_mem_cons.mpr ⟨fun i hi => ?_, ih⟩
    cases hf with
    | mk _ _ _ _ _ _ _ _ hbody =>
      obtain ⟨b, hb, hi⟩ := List.mem_flatMap.mp hi
      exact isInstr_of_isBody hbody b hb i hi

theorem length_of_isPair {args : List Operand} (h : IsPair l args) : args.length = 2 := by
  cases h
  rfl

theorem takes_of_completes {i j : InstrSyntax} (h : Completes i l j) (hargs : i.args = [])
    (htargets : i.targets = []) : j.op.Takes j.args.length j.targets.length := by
  cases h with
  | arith hop _ hpair =>
    have hlength := length_of_isPair hpair
    simp only [List.mem_cons, List.not_mem_nil, or_false] at hop
    rcases hop with hop | hop | hop | hop <;> simp [Opcode.Takes, hop, hlength, htargets]
  | cmp hop _ hpair => simp [Opcode.Takes, hop, length_of_isPair hpair, htargets]
  | alloca hop => simp [Opcode.Takes, hop, hargs, htargets]
  | load hop => simp [Opcode.Takes, hop, htargets]
  | store hop _ hpair => simp [Opcode.Takes, hop, length_of_isPair hpair, htargets]
  | call hop => simp [Opcode.Takes, hop, htargets]
  | br hop => simp [Opcode.Takes, hop, hargs]
  | condbr hop => simp [Opcode.Takes, hop]
  | retVoid hop => simp [Opcode.Takes, hop, hargs, htargets]
  | ret hop => simp [Opcode.Takes, hop, htargets]

theorem takes_of_isInstr {i : InstrSyntax} (h : IsInstr l i) :
    i.op.Takes i.args.length i.targets.length := by
  cases h with
  | plain _ hrest => exact takes_of_completes hrest rfl rfl
  | named _ _ _ _ hrest => exact takes_of_completes hrest rfl rfl

end Shapes

/-! ### Functions -/

namespace Source

theorem FuncSyntax.find?_names_ne_const {fn : FuncSyntax} {pbase ibase : Nat} {n : String}
    (hvalues : fn.valueNames.Nodup) (c : ConstId) : (fn.names pbase ibase).find? n ≠ some (.const c) := by
  intro hfind
  have hkeys : ((fn.names pbase ibase).map Prod.fst).Nodup := by
    rw [fn.map_fst_names]
    exact hvalues
  have hmem := (Names.find?_eq_some_iff hkeys).mp hfind
  simp [names, paramNames, resultNames] at hmem

namespace InstrSyntax.Denotes

variable {p : Program} {names : Names} {i : InstrSyntax} {k : Nat} {l : List Operand}
  {vs : List Value}

theorem length_eq (h : i.Denotes p names k l vs) : vs.length = l.length := by
  rw [← List.Forall₂.length_eq h, List.length_zipIdx]

theorem getElem? (h : i.Denotes p names k l vs) {m : Nat} {a : Operand} (ha : l[m]? = some a) :
    ∃ v, vs[m]? = some v ∧ a.Denotes p names (i.literalType (k + m)) v := by
  induction l generalizing k vs m with
  | nil => cases ha
  | cons b l ih =>
    rw [InstrSyntax.Denotes, List.zipIdx_cons] at h
    cases h with
    | cons hb hl =>
      cases m with
      | zero =>
        cases ha
        exact ⟨_, rfl, hb⟩
      | succ m =>
        obtain ⟨v, hv, hdenotes⟩ := ih hl ha
        rw [Nat.add_assoc, Nat.add_comm 1 m] at hdenotes
        exact ⟨v, hv, hdenotes⟩

/-- Every value is that of an operand. -/
theorem exists_of_mem (h : i.Denotes p names k l vs) {v : Value} (hv : v ∈ vs) :
    ∃ a ∈ l, ∃ m, a.Denotes p names (i.literalType m) v := by
  obtain ⟨m, hm, rfl⟩ := List.getElem_of_mem hv
  have hl : m < l.length := h.length_eq ▸ hm
  obtain ⟨w, hw, hdenotes⟩ := h.getElem? (List.getElem?_eq_getElem hl)
  rw [List.getElem?_eq_getElem hm] at hw
  cases hw
  exact ⟨_, List.getElem_mem hl, _, hdenotes⟩

end InstrSyntax.Denotes

namespace Realizes

variable {p : Program} {f : FuncId} {fn : FuncSyntax} {pbase ibase : Nat}
  (h : Realizes p f fn pbase ibase)

include h

theorem funcInstrs : p.funcInstrs f = List.range' ibase fn.instrs.length := by
  rw [Program.funcInstrs, h.func]
  exact flatMap_instrs_blocksOf 0 ibase fn.blocks

/-- The instruction at a position of the text. -/
theorem instr_of_site {j k : Nat} {x : InstrSyntax} (hj : fn.sites[j]? = some (k, x)) :
    (p.instr (ibase + j)).id = j + 1 ∧ (p.instr (ibase + j)).op = x.op ∧
      (p.instr (ibase + j)).name = x.name ∧ (p.instr (ibase + j)).ty = x.ty := by
  obtain ⟨ts, vs, hinstr, -⟩ := h.instrs j k x hj
  rw [hinstr]
  exact ⟨rfl, rfl, rfl, rfl⟩

theorem exists_of_mem {i : InstrId} (hi : i ∈ p.funcInstrs f) :
    ∃ j k x, i = ibase + j ∧ fn.sites[j]? = some (k, x) := by
  rw [h.funcInstrs, List.mem_range'_1] at hi
  have hj : i - ibase < fn.sites.length := by
    rw [fn.length_sites]
    exact Nat.sub_lt_left_of_lt_add hi.1 hi.2
  exact ⟨i - ibase, _, _, (Nat.add_sub_cancel' hi.1).symm, List.getElem?_eq_getElem hj⟩

/-- The instructions are numbered in the order of the text. -/
theorem numbers : (p.funcInstrs f).map (fun i => (p.instr i).id) =
    List.range' 1 (p.funcInstrs f).length := by
  rw [h.funcInstrs, List.length_range']
  apply List.ext_getElem
  · simp
  · intro j hj _
    rw [List.length_map, List.length_range', ← fn.length_sites] at hj
    obtain ⟨hid, -⟩ := h.instr_of_site (List.getElem?_eq_getElem hj)
    simp only [List.getElem_map, List.getElem_range', Nat.one_mul]
    rw [hid, Nat.add_comm]

theorem conveys : List.Forall₂ p.Conveys (p.funcInstrs f) fn.instrs := by
  rw [h.funcInstrs, List.forall₂_iff_get]
  refine ⟨List.length_range', fun j hj hj' => ?_⟩
  obtain ⟨k, hsite⟩ := exists_site (List.getElem?_eq_getElem hj')
  obtain ⟨-, hop, hname, hty⟩ := h.instr_of_site hsite
  simp only [List.get_eq_getElem, List.getElem_range', Nat.one_mul]
  refine ⟨hop, hname, hty, fun m a x ha hform => ?_⟩
  obtain ⟨ts, vs, hinstr, -, hargs⟩ := h.instrs j k _ hsite
  obtain ⟨v, hv, hdenotes⟩ := hargs.getElem? ha
  rw [Operand.Denotes, hform] at hdenotes
  obtain ⟨c, -, rfl, hconst⟩ := hdenotes
  rw [hinstr]
  refine ⟨c, ?_, ?_⟩
  · simp [hv]
  · rw [hconst, Nat.zero_add]
    rfl

/-- The instructions have the operands and targets of the text. -/
theorem takes {i : InstrId} (hi : i ∈ p.funcInstrs f)
    (hshape : ∀ x ∈ fn.instrs, x.op.Takes x.args.length x.targets.length) :
    (p.instr i).op.Takes (p.instr i).operands.length (p.instr i).targets.length := by
  obtain ⟨j, k, x, rfl, hsite⟩ := h.exists_of_mem hi
  obtain ⟨ts, vs, hinstr, htargets, hargs⟩ := h.instrs j k x hsite
  have hlength := hshape x (List.mem_of_getElem? (getElem?_instrs_of_site hsite))
  rw [htargets.length_eq, ← hargs.length_eq] at hlength
  rw [hinstr]
  dsimp only
  rw [List.length_map]
  exact hlength

/-- Constants are cut down to their types. -/
theorem wrapped (hvalues : fn.valueNames.Nodup) {i : InstrId} (hi : i ∈ p.funcInstrs f) {c : ConstId}
    (hc : some (.const c) ∈ (p.instr i).operands) :
    (p.consts.get c).ty.wrap (p.consts.get c).value = (p.consts.get c).value := by
  obtain ⟨j, k, x, rfl, hsite⟩ := h.exists_of_mem hi
  obtain ⟨ts, vs, hinstr, -, hargs⟩ := h.instrs j k x hsite
  rw [hinstr] at hc
  obtain ⟨v, hv, hvc⟩ := List.mem_map.mp hc
  cases hvc
  obtain ⟨a, -, m, hdenotes⟩ := hargs.exists_of_mem hv
  unfold Operand.Denotes at hdenotes
  split at hdenotes
  · exact absurd hdenotes (fn.find?_names_ne_const hvalues c)
  · obtain ⟨g, -, hg⟩ := hdenotes
    cases hg
  · next y _ =>
    obtain ⟨d, -, hd, hconst⟩ := hdenotes
    cases hd
    rw [hconst]
    exact Ty.wrap_wrap _ y

/-- A block is found by its label. -/
theorem findBlock?_eq (hlabels : fn.labels.Nodup) {k : Nat} {b : Block}
    (hb : (p.func f).blocks[k]? = some b) : p.findBlock? f b.name = some ⟨f, k⟩ := by
  rw [h.func, FuncSyntax.toFunc, List.getElem?_toArray] at hb
  obtain ⟨hk, rfl⟩ := List.getElem?_eq_some_iff.mp hb
  rw [FuncSyntax.labels, ← map_name_blocksOf 0 ibase] at hlabels
  have hdistinct := List.pairwise_iff_getElem.mp hlabels
  have hfirst : (blocksOf 0 ibase fn.blocks).findIdx? (fun c =>
      decide (c.name = (blocksOf 0 ibase fn.blocks)[k].name)) = some k := by
    refine List.findIdx?_eq_some_iff_getElem.mpr ⟨hk, by simp, fun j hj hname => ?_⟩
    have hne := hdistinct j k (by simpa using Nat.lt_trans hj hk) (by simpa using hk) hj
    simp only [List.getElem_map] at hne
    exact hne (of_decide_eq_true hname)
  rw [Program.findBlock?, h.func, FuncSyntax.toFunc, List.findIdx?_toArray, hfirst]
  rfl

end Realizes

end Source

/-! ### Programs -/

variable {name : String} {src : ByteArray} {p : Program}

theorem Program.lt_size_of_mem_funcInstrs {f : FuncId} {i : InstrId} (hi : i ∈ p.funcInstrs f) :
    f < p.funcs.size := by
  obtain ⟨k, hk⟩ := Program.mem_funcInstrs.mp hi
  exact (Program.hasBlock_of_mem hk).func_lt

/-- **The program of an accepted text is regular,** and function by function its instructions are those
of the text, in the same order. -/
theorem parse_regular (h : Program.parse name src = .ok p) :
    p.Regular ∧ ∃ s, ProgramSyntax.parse (Text.Symbol.ofBytes src) = .ok s ∧
      s.funcs.length = p.funcs.size ∧
      ∀ f fn, s.funcs[f]? = some fn → List.Forall₂ p.Conveys (p.funcInstrs f) fn.instrs := by
  obtain ⟨hwf, hord⟩ := Program.wellFormed_of_parse h
  obtain ⟨s, l, -, hs, -, hl, hresolves, hrep⟩ := exists_syntax_of_parse h
  have hmem : ∀ {f fn}, s.funcs[f]? = some fn → fn ∈ s.funcs := List.mem_of_getElem?
  have hplace : ∀ {f i}, i ∈ p.funcInstrs f → ∃ k, (p.instr i).place = .inBlock ⟨f, k⟩ := by
    intro f i hi
    obtain ⟨k, hk⟩ := Program.mem_funcInstrs.mp hi
    exact ⟨k, (hwf.listed _ _).mp hk⟩
  refine ⟨⟨hwf.toCoherent.verify_eq_nil_iff.mpr hord, fun f i hi => ?_, fun f i hi v hv => ?_,
    fun f i hi b hb => ?_, fun f k b hb => ?_, fun f => ?_, fun f i hi c hc => ?_⟩, s, hs,
    hrep.size.symm, fun f fn hf => ?_⟩
  · obtain ⟨fn, pbase, ibase, hfn, hfunc⟩ :=
      hrep.exists_realizes (Program.lt_size_of_mem_funcInstrs hi)
    refine hfunc.takes hi fun x hx => ?_
    obtain ⟨l', hl'⟩ := isInstr_of_isProgram hl fn (hmem hfn) x hx
    exact takes_of_isInstr hl'
  · obtain ⟨k, hk⟩ := hplace hi
    obtain ⟨w, rfl, husable⟩ := hwf.usable i _ hk v hv
    refine ⟨w, rfl, ?_⟩
    rintro d rfl
    exact (Program.usable_instr.mp husable).choose_spec.2.2
  · obtain ⟨k, hk⟩ := hplace hi
    exact Program.mem_blockRefs.mpr (hwf.targets i _ hk b hb)
  · have hf : f < p.funcs.size := by
      refine Nat.lt_of_not_le fun hle => ?_
      rw [Program.func, Array.getD_eq_getD_getElem?, Array.getElem?_eq_none hle] at hb
      cases hb
    obtain ⟨fn, pbase, ibase, hfn, hfunc⟩ := hrep.exists_realizes hf
    have hblock : p.block ⟨f, k⟩ = b := by
      rw [Program.block, Array.getD_eq_getD_getElem?, hb]
      rfl
    refine ⟨?_, hfunc.findBlock?_eq (hresolves.each fn (hmem hfn)).labels hb, fun i hi => ?_⟩
    · obtain ⟨hk, -⟩ := Array.getElem?_eq_some_iff.mp hb
      rw [← hblock]
      exact hwf.number ⟨f, k⟩ hk
    · refine (hwf.listed ⟨f, k⟩ i).mp ?_
      rw [hblock]
      exact hi
  · rcases Nat.lt_or_ge f p.funcs.size with hf | hf
    · obtain ⟨fn, pbase, ibase, hfn, hfunc⟩ := hrep.exists_realizes hf
      exact hfunc.numbers
    · have hnone : p.funcInstrs f = [] := List.eq_nil_iff_forall_not_mem.mpr fun i hi =>
        absurd (Program.lt_size_of_mem_funcInstrs hi) (Nat.not_lt_of_le hf)
      rw [hnone]
      rfl
  · obtain ⟨fn, pbase, ibase, hfn, hfunc⟩ :=
      hrep.exists_realizes (Program.lt_size_of_mem_funcInstrs hi)
    exact hfunc.wrapped (hresolves.each fn (hmem hfn)).values hi hc
  · obtain ⟨pbase, ibase, hfunc⟩ := hrep.funcs f fn hf
    exact hfunc.conveys

/-- A text with an integer that is too large for its type. -/
def overflowing : ByteArray :=
  ("func @f(%a: i8) : i8 \x7b\nL:\n    %x = add i8 %a, 300\n    br M\nM:\n    ret i8 %x\n" ++
    "\x7d\n").toUTF8

theorem parse_regular_overflowing : ∃ p, Program.parse "m" overflowing = .ok p ∧ p.Regular ∧
    (p.funcInstrs 0).map (fun i => (p.instr i).id) = [1, 2, 3] ∧
    (p.instr 0).operands = [some (.param 0), some (.const 0)] ∧ p.consts.get 0 = ⟨.int 8, 44⟩ := by
  obtain ⟨p, hp, hfound⟩ : ∃ p, Program.parse "m" overflowing = .ok p ∧
      ((p.funcInstrs 0).length == 3 &&
        (p.instr 0).operands == [some (.param 0), some (.const 0)] &&
        p.consts.get 0 == ⟨.int 8, 44⟩) = true :=
    Program.exists_of_parse (by decide +kernel)
  simp only [Bool.and_eq_true, beq_iff_eq] at hfound
  obtain ⟨⟨hlength, hoperands⟩, hconst⟩ := hfound
  obtain ⟨hregular, -⟩ := parse_regular hp
  refine ⟨p, hp, hregular, ?_, hoperands, hconst⟩
  rw [hregular.numbers, hlength]
  rfl

end Midend
