import Midend.Proofs.Pass.Optimizer
import Midend.Proofs.Program.Obtainable
import Midend.Proofs.Source.AcceptedPrograms

/-!
# What the optimizer leaves standing

Runs of the optimizer take instructions out of blocks and exchange operands, and leave the rest of a
program as it is.  Which instructions can go is found by following the passes step by step.  What is
dead or folded only computes a value.  The one other instruction that is ever erased is the first
operand of a merge, and since an operand has a result, stores and jumps are safe.  A call with a result
is not: it goes if the merge leaves it without a use, whatever else the call may do.

## Main definitions

* `Program.Trims`: instructions are missing and operands differ, and that is all.
* `Simplifies`: the steps of the passes, with the merges among them.
* `Program.effects`: the instructions of a block that do more than compute a value.
* `SiblingMerge.freed`: the instructions that merges left without a use.

## Main results

* `Rewrites.trims`: rewriting steps trim a program.
* `Simplifies.effects_eq`: what becomes of the instructions with an effect.
* `optimized_trims`: the frame of runs on the program of an accepted text; stores and jumps stay.
* `calls_optimized`: which calls stay.
-/

namespace Midend

/-! ### Trimmed programs -/

/-- `q` is what is left of `p` when instructions are taken out of its blocks and operands are
exchanged. -/
structure Program.Trims (p q : Program) : Prop where
  /-- The name stays. -/
  name : q.name = p.name
  /-- The global variables stay. -/
  globals : q.globals = p.globals
  /-- The parameters stay. -/
  params : q.params = p.params
  /-- No function is lost or added. -/
  size : q.funcs.size = p.funcs.size
  /-- A function keeps all but the contents of its blocks. -/
  func : ∀ f, ∃ blocks, blocks.size = (p.func f).blocks.size ∧
    q.func f = { p.func f with blocks := blocks }
  /-- A block keeps its number and its label. -/
  label : ∀ b, (q.block b).id = (p.block b).id ∧ (q.block b).name = (p.block b).name
  /-- Some of its instructions are left, in the same order. -/
  sublist : ∀ b, (q.block b).instrs.Sublist (p.block b).instrs
  /-- They are the same but for their operands, and have as many of them. -/
  instr : ∀ b, ∀ i ∈ (q.block b).instrs, ∃ ops, q.instr i = { p.instr i with operands := ops } ∧
    ops.length = (p.instr i).operands.length

namespace Program

variable {p q r : Program}

theorem Trims.refl (p : Program) : p.Trims p where
  name := rfl
  globals := rfl
  params := rfl
  size := rfl
  func _ := ⟨_, rfl, rfl⟩
  label _ := ⟨rfl, rfl⟩
  sublist _ := .refl _
  instr _ _ _ := ⟨_, rfl, rfl⟩

theorem Trims.trans (h : p.Trims q) (h' : q.Trims r) : p.Trims r where
  name := h'.name.trans h.name
  globals := h'.globals.trans h.globals
  params := h'.params.trans h.params
  size := h'.size.trans h.size
  func f := by
    obtain ⟨blocks, hsize, heq⟩ := h.func f
    obtain ⟨blocks', hsize', heq'⟩ := h'.func f
    refine ⟨blocks', ?_, ?_⟩
    · rw [hsize', heq, hsize]
    · rw [heq', heq]
  label b := ⟨(h'.label b).1.trans (h.label b).1, (h'.label b).2.trans (h.label b).2⟩
  sublist b := (h'.sublist b).trans (h.sublist b)
  instr b i hi := by
    obtain ⟨ops, heq, hlength⟩ := h.instr b i ((h'.sublist b).subset hi)
    obtain ⟨ops', heq', hlength'⟩ := h'.instr b i hi
    refine ⟨ops', ?_, ?_⟩
    · rw [heq', heq]
    · rw [hlength', heq, hlength]

/-- Exchanging operands trims a program. -/
theorem Trims.of_operands (hframe : ∃ cs is us, q = { p with consts := cs, instrs := is, uses := us })
    (hinstr : ∀ i, ∃ ops, q.instr i = { p.instr i with operands := ops } ∧
      ops.length = (p.instr i).operands.length) : p.Trims q := by
  obtain ⟨cs, is, us, rfl⟩ := hframe
  exact {
    name := rfl, globals := rfl, params := rfl, size := rfl, label := fun _ => ⟨rfl, rfl⟩
    func := fun _ => ⟨_, rfl, rfl⟩
    sublist := fun _ => .refl _
    instr := fun _ i _ => hinstr i }

theorem trims_redirect (p : Program) (old new : Value) : p.Trims (p.redirect old new) := by
  obtain ⟨is, us, heq⟩ := p.exists_redirect old new
  exact .of_operands ⟨p.consts, is, us, heq⟩ (exists_instr_redirect p old new)

theorem trims_replaceOperand (p : Program) (slot : Use) (v : Value) :
    p.Trims (p.replaceOperand slot v) := by
  obtain ⟨is, us, heq⟩ := p.exists_replaceOperand slot v
  refine .of_operands ⟨p.consts, is, us, heq⟩ fun i => ?_
  rw [instr_replaceOperand]
  split
  · exact ⟨_, rfl, List.length_set⟩
  · exact ⟨_, rfl, rfl⟩

/-- Erasing an instruction trims a program. -/
theorem Intact.trims_detach (h : p.Intact) (i : InstrId) : p.Trims (p.detach i) := by
  obtain ⟨fs, is, ls, us, hframe⟩ := p.exists_detach i
  refine {
    name := by rw [hframe], globals := by rw [hframe], params := by rw [hframe]
    size := p.size_funcs_detach i
    func := p.func_detach i, label := fun b => ?_, sublist := fun b => ?_
    instr := fun b j hj => ?_ }
  · rw [h.block_detach]
    split <;> exact ⟨rfl, rfl⟩
  · rw [h.block_detach]
    split
    · exact List.erase_sublist
    · exact .refl _
  · -- What is still listed is not the erased instruction.
    obtain ⟨-, -, heq⟩ := h.of_listed_detach ⟨b, hj⟩
    exact ⟨_, heq, rfl⟩

end Program

/-- **Rewriting steps trim a program.** -/
theorem Rewrites.trims {ms : List Merge} {p q : Program} (h : Rewrites ms p q) (hp : p.WellFormed) :
    p.Trims q := by
  induction h with
  | refl p => exact .refl p
  | change hpq hc ih =>
    refine (ih hp).trans ?_
    cases hc with
    | erase i _ => exact (hpq.wellFormed hp).intact.trims_detach i
    | constant c => exact .of_operands ⟨_, _, _, rfl⟩ fun _ => ⟨_, rfl, rfl⟩
    | substitute old c => exact Program.trims_redirect _ old (.const c)
  | merge hpq hm ih =>
    refine (ih hp).trans ?_
    exact (Program.trims_redirect _ _ _).trans (Program.trims_replaceOperand _ _ _)

/-! ### Steps of the passes -/

/-- A sequence of steps that the passes can take, with the merges among them. -/
inductive Simplifies : List SiblingMerge → Program → Program → Prop where
  /-- No step at all. -/
  | refl (p : Program) : Simplifies [] p p
  /-- A dead instruction is erased. -/
  | dead {ms : List SiblingMerge} {p q : Program} {i : InstrId} : Simplifies ms p q → q.IsDead i →
      Simplifies ms p (q.detach i)
  /-- A constant instruction is folded. -/
  | fold {ms : List SiblingMerge} {p q : Program} {i : InstrId} {c : Const} : Simplifies ms p q →
      foldedConst? q i = some c → Simplifies ms p (q.fold i c)
  /-- Operands are exchanged for constants, without a merge. -/
  | reslot {ms : List SiblingMerge} {p q r : Program} : Simplifies ms p q → Rewrites [] q r →
      q.SameButOperands r → Simplifies ms p r
  /-- Operands are merged. -/
  | merge {ms : List SiblingMerge} {p : Program} {m : SiblingMerge} : Simplifies ms p m.before →
      m.Fits → Simplifies (ms ++ [m]) p m.outcome

namespace Simplifies

variable {ms : List SiblingMerge} {p q : Program}

theorem rewrites (h : Simplifies ms p q) : Rewrites (ms.map (·.toMerge)) p q := by
  have append_nil : ∀ {ms : List Merge} {p q r}, Rewrites ms p q → Rewrites [] q r → Rewrites ms p r := by
    intro ms p q r h h'
    simpa using h.trans h'
  induction h with
  | refl p => exact .refl p
  | dead _ hdead ih => exact append_nil ih hdead.rewrites
  | fold _ hc ih => exact append_nil ih (Program.rewrites_fold _ _ _)
  | reslot _ hqr _ ih => exact append_nil ih hqr
  | merge _ hm ih =>
    rw [List.map_append]
    exact ih.trans hm.rewrites

theorem wellFormed (h : Simplifies ms p q) (hp : p.WellFormed) : q.WellFormed :=
  h.rewrites.wellFormed hp

theorem trims (h : Simplifies ms p q) (hp : p.WellFormed) : p.Trims q := h.rewrites.trims hp

/-- Every merge starts from a program on the way, and is one of the peephole walk. -/
theorem of_mem (h : Simplifies ms p q) {m : SiblingMerge} (hm : m ∈ ms) :
    (∃ ms', Simplifies ms' p m.before) ∧ m.Fits := by
  induction h with
  | refl p => cases hm
  | dead _ _ ih => exact ih hm
  | fold _ _ ih => exact ih hm
  | reslot _ _ _ ih => exact ih hm
  | merge hpq hfits ih =>
    rcases List.mem_append.mp hm with hm | hm
    · exact ih hm
    · rw [List.mem_singleton.mp hm]
      exact ⟨⟨_, hpq⟩, hfits⟩

/-- The first operand of a merge has a result, and operands of its own. -/
theorem first_of_mem (h : Simplifies ms p q) (hp : p.WellFormed) {m : SiblingMerge} (hm : m ∈ ms) :
    (p.instr m.first).ty.isVoid = false ∧ (p.instr m.first).operands ≠ [] := by
  obtain ⟨⟨ms', hpath⟩, hfits⟩ := h.of_mem hm
  have hbefore := hpath.wellFormed hp
  obtain ⟨c, hc, hty⟩ := hbefore.usable_of_siblings hfits.siblings
  obtain ⟨-, -, hne, -⟩ := siblings?_eq_some hfits.siblings
  obtain ⟨ops, heq, hlength⟩ :=
    (hpath.trims hp).instr c m.first ((hbefore.listed c m.first).mpr hc)
  rw [heq] at hty hne
  refine ⟨hty, fun hnil => hne ?_⟩
  rw [hnil] at hlength
  exact List.length_eq_zero_iff.mp hlength

end Simplifies

/-! ### Instructions with an effect -/

namespace Program

variable {p q : Program}

/-- The instructions of a block that do more than compute a value. -/
def effects (p : Program) (b : BlockRef) : List InstrId :=
  (p.block b).instrs.filter fun i => !(p.instr i).isPure

theorem mem_effects {b : BlockRef} {i : InstrId} :
    i ∈ p.effects b ↔ i ∈ (p.block b).instrs ∧ (p.instr i).isPure = false := by
  rw [effects, List.mem_filter, Bool.not_eq_true']

/-- What is never pure is found among the instructions with an effect. -/
theorem filter_effects (p : Program) (b : BlockRef) {c : Instr → Bool}
    (hc : ∀ x, c x = true → x.isPure = false) :
    (p.block b).instrs.filter (fun i => c (p.instr i)) =
      (p.effects b).filter fun i => c (p.instr i) := by
  unfold effects
  rw [List.filter_filter]
  refine List.filter_congr fun i _ => ?_
  cases hi : c (p.instr i) with
  | false => rfl
  | true => simp [hc _ hi]

theorem Intact.effects_detach (h : p.Intact) (i : InstrId) (b : BlockRef) :
    (p.detach i).effects b = (p.effects b).filter (· ≠ i) := by
  unfold effects
  rw [h.instrs_detach, List.filter_filter, List.filter_filter]
  refine List.filter_congr fun j _ => ?_
  by_cases hj : j = i
  · simp [hj]
  · rw [instr_detach, if_neg (Ne.symm hj), Bool.and_comm]

/-- Erasing an instruction that only computes a value takes no effect away. -/
theorem Intact.effects_detach_of_isPure (h : p.Intact) {i : InstrId} (hi : (p.instr i).isPure = true)
    (b : BlockRef) : (p.detach i).effects b = p.effects b := by
  rw [h.effects_detach, List.filter_eq_self]
  intro j hj
  refine decide_eq_true fun heq => ?_
  have hpure := (mem_effects.mp hj).2
  rw [heq, hi] at hpure
  cases hpure

theorem SameButOperands.effects (h : SameButOperands p q) (b : BlockRef) : q.effects b = p.effects b := by
  unfold Program.effects
  rw [block_congr h.funcs]
  refine List.filter_congr fun i _ => ?_
  rw [Instr.isPure, Instr.isPure, h.op, h.ty]

theorem WellFormed.effects_fold (h : p.WellFormed) {i : InstrId} {c : Const}
    (hc : foldedConst? p i = some c) (b : BlockRef) : (p.fold i c).effects b = p.effects b := by
  have hsame := sameButOperands_redirect { p with consts := p.consts.push c } (.instr i)
    (.const p.consts.size)
  have hpure := (isDead_of_foldedConst hc).isPure
  rw [fold, ((h.withConsts _).redirect_const _ _).intact.effects_detach_of_isPure hpure, hsame.effects]
  rfl

end Program

namespace SiblingMerge

/-- The instructions that merges left without a use. -/
def freed (ms : List SiblingMerge) : List InstrId := (ms.filter fun m => m.Frees).map (·.first)

theorem mem_freed {ms : List SiblingMerge} {i : InstrId} :
    i ∈ freed ms ↔ ∃ m ∈ ms, m.Frees ∧ m.first = i := by
  simp only [freed, List.mem_map, List.mem_filter, decide_eq_true_eq, and_assoc]

/-- A merge takes away the effect of an instruction it leaves without a use. -/
theorem Fits.effects_outcome {m : SiblingMerge} (h : m.Fits) (hp : m.before.WellFormed)
    (b : BlockRef) :
    m.outcome.effects b = (m.before.effects b).filter fun i => ¬ (m.Frees ∧ m.first = i) := by
  have hsame : m.after.effects b = m.before.effects b :=
    (Program.sameButOperands_merge _ _ _).effects b
  unfold outcome
  by_cases hfree : m.Frees
  · rw [if_pos hfree, (Merge.wellFormed h.valid hp).intact.effects_detach, hsame]
    refine List.filter_congr fun i _ => ?_
    simp [hfree, eq_comm]
  · rw [if_neg hfree, hsame, List.filter_eq_self.mpr]
    simp [hfree]

end SiblingMerge

/-- **Nothing with an effect is lost but what merges left without a use.** -/
theorem Simplifies.effects_eq {ms : List SiblingMerge} {p q : Program} (h : Simplifies ms p q)
    (hp : p.WellFormed) (b : BlockRef) :
    q.effects b = (p.effects b).filter (· ∉ SiblingMerge.freed ms) := by
  induction h with
  | refl p =>
    rw [List.filter_eq_self.mpr]
    simp [SiblingMerge.freed]
  | dead hpq hdead ih =>
    rw [(hpq.wellFormed hp).intact.effects_detach_of_isPure hdead.isPure, ih hp]
  | fold hpq hc ih => rw [(hpq.wellFormed hp).effects_fold hc, ih hp]
  | reslot hpq _ hsame ih => rw [hsame.effects, ih hp]
  | merge hpq hm ih =>
    rw [hm.effects_outcome (hpq.wellFormed hp), ih hp, List.filter_filter]
    refine List.filter_congr fun i _ => ?_
    rw [← Bool.decide_and, decide_eq_decide]
    simp only [SiblingMerge.mem_freed, List.mem_append, List.mem_singleton]
    grind

/-! ### Runs -/

/-- `q` came from `p` by steps of the passes, without a merge unless `merging` holds. -/
structure Program.Simplified (merging : Prop) (p q : Program) : Prop where
  /-- The program is well-formed. -/
  wellFormed : q.WellFormed
  /-- The steps. -/
  path : ∃ ms, Simplifies ms p q ∧ (ms ≠ [] → merging)

namespace Program.Simplified

variable {P : Prop} {p q : Program}

theorem dead (h : Simplified P p q) {i : InstrId} (hi : q.IsDead i) : Simplified P p (q.detach i) := by
  obtain ⟨ms, hms, hP⟩ := h.path
  exact ⟨h.wellFormed.detach hi.unused, ms, hms.dead hi, hP⟩

theorem keeps_dce (i : InstrId) : Act.Keeps (Simplified P p) (dce i) := by
  refine .of_succeeds fun q hq => (succeeds_dce i q).mono fun _ r hr => ?_
  rcases hr with ⟨-, rfl⟩ | ⟨-, hdead, rfl⟩
  · exact hq
  · exact hq.dead hdead

theorem keeps_constFold (i : InstrId) : Act.Keeps (Simplified P p) (constFold i) := by
  refine .of_succeeds fun q hq => (succeeds_constFold i q).mono fun _ r hr => ?_
  rcases hr with rfl | ⟨c, hc, rfl⟩
  · exact hq
  · obtain ⟨ms, hms, hP⟩ := hq.path
    exact ⟨(rewrites_fold q i c).wellFormed hq.wellFormed, ms, hms.fold hc, hP⟩

theorem keeps_cse (hP : P) (v : Value) : Act.Keeps (Simplified P p) (cse (some v)) := by
  refine .of_succeeds fun q hq => (succeeds_cse v hq.wellFormed).mono fun _ r hr => ?_
  rcases hr with ⟨-, rfl⟩ | ⟨-, m, rfl, hfits, hr⟩
  · exact hq
  · obtain ⟨ms, hms, -⟩ := hq.path
    have houtcome : Simplified P p m.outcome :=
      ⟨hfits.rewrites.wellFormed hq.wellFormed, ms ++ [m], hms.merge hfits, fun _ => hP⟩
    rcases hr with rfl | ⟨t, hdead, rfl⟩
    · exact houtcome
    · exact houtcome.dead hdead

theorem keeps_constProp (f : FuncId) : Act.Keeps (Session.Has (Simplified P p)) (constProp f) := by
  refine Pass.keeps_constProp_of_solve f fun s hs => ?_
  refine (succeeds_solveReachingStores f s hs.wellFormed).ensures fun _ t ht => ?_
  obtain ⟨ms, hms, hP⟩ := Simplified.path hs
  obtain ⟨ms', hms', -, hnone⟩ := ht.leads.path
  -- The solver lets nothing merge.
  obtain rfl : ms' = [] := Classical.byContradiction hnone
  exact ⟨ht.leads.wellFormed (Simplified.wellFormed hs), ms, hms.reslot hms' ht.same, hP⟩

theorem keeps_optimizePass {o : Options} (hP : o.peephole = true → P) :
    Act.Keeps (Session.Has (Simplified P p)) (optimizePass o) :=
  Pass.keeps_optimizePass
    (fun ho => Pass.keeps_walk keeps_dce keeps_constFold fun v => keeps_cse (hP ho) v)
    keeps_constProp (Pass.keeps_sweep keeps_dce)

/-- **Runs one after another take steps of the passes.** -/
theorem optimized (h : Simplified P p q) (os : List Options) (hP : ∀ o ∈ os, o.peephole = true → P) :
    Simplified P p (q.optimized os) := by
  induction os generalizing q with
  | nil => exact h
  | cons o os ih =>
    have hstart : Session.Has (Simplified P p) { program := q } := h
    have hrun : Simplified P p (optimize o q).2.program :=
      (keeps_optimizePass (hP o List.mem_cons_self)).state hstart
    exact ih hrun fun o' ho' => hP o' (List.mem_cons_of_mem o ho')

end Program.Simplified

theorem simplifies_optimized {p : Program} (h : p.WellFormed) (os : List Options) :
    ∃ ms, Simplifies ms p (p.optimized os) ∧ ((∀ o ∈ os, o.peephole = false) → ms = []) := by
  have hstart : p.Simplified (∃ o ∈ os, o.peephole = true) p := ⟨h, [], .refl p, fun hne => absurd rfl hne⟩
  obtain ⟨ms, hms, hP⟩ := (hstart.optimized os fun o ho hpeephole => ⟨o, ho, hpeephole⟩).path
  refine ⟨ms, hms, fun hoff => Classical.byContradiction fun hne => ?_⟩
  obtain ⟨o, ho, hpeephole⟩ := hP hne
  rw [hoff o ho] at hpeephole
  cases hpeephole

/-! ### Programs of accepted texts -/

namespace Source.Grammar

/-- Jumps have no result. -/
theorem isVoid_of_completes {i j : InstrSyntax} {l : List Token} (h : Completes i l j)
    (hty : i.ty = .void) (hop : j.op.isTerminator = true) : j.ty = .void := by
  cases h with
  | arith hi =>
    simp only [List.mem_cons, List.not_mem_nil, or_false] at hi
    rcases hi with hi | hi | hi | hi <;> simp [hi, Opcode.isTerminator] at hop
  | cmp hi => simp [hi, Opcode.isTerminator] at hop
  | alloca hi => simp [hi, Opcode.isTerminator] at hop
  | load hi => simp [hi, Opcode.isTerminator] at hop
  | store hi => exact hty
  | call hi => simp [hi, Opcode.isTerminator] at hop
  | br => exact hty
  | condbr => exact hty
  | retVoid => exact hty
  | ret => exact hty

theorem isVoid_of_isInstr {i : InstrSyntax} {l : List Token} (h : IsInstr l i)
    (hop : i.op.isTerminator = true) : i.ty = .void := by
  cases h with
  | plain _ hrest => exact isVoid_of_completes hrest rfl hop
  | named _ _ _ _ hrest => exact isVoid_of_completes hrest rfl hop

end Source.Grammar

section Parsed

variable {name : String} {src : ByteArray} {p : Program} (h : Program.parse name src = .ok p)

include h

/-- Stores and jumps have no result. -/
theorem isVoid_of_parse {b : BlockRef} {i : InstrId} (hi : i ∈ (p.block b).instrs)
    (hop : (p.instr i).op = .store ∨ (p.instr i).op.isTerminator = true) :
    (p.instr i).ty.isVoid = true := by
  rcases hop with hop | hop
  · have hwf := (Program.wellFormed_of_parse h).1
    exact hwf.void i b ((hwf.listed b i).mp hi) hop
  · obtain ⟨s, l, -, -, -, hl, -, hrep⟩ := exists_syntax_of_parse h
    have hmem : i ∈ p.funcInstrs b.func := Program.mem_funcInstrs.mpr ⟨b.index, hi⟩
    obtain ⟨fn, pbase, ibase, hfn, hfunc⟩ :=
      hrep.exists_realizes (Program.lt_size_of_mem_funcInstrs hmem)
    obtain ⟨j, k, x, rfl, hsite⟩ := hfunc.exists_of_mem hmem
    obtain ⟨-, hxop, -, hxty⟩ := hfunc.instr_of_site hsite
    have hx : x ∈ fn.instrs := List.mem_of_getElem? (Source.getElem?_instrs_of_site hsite)
    obtain ⟨l', hl'⟩ := isInstr_of_isProgram hl fn (List.mem_of_getElem? hfn) x hx
    rw [hxop] at hop
    rw [hxty, Source.Grammar.isVoid_of_isInstr hl' hop]
    rfl

/-- Stores and jumps are never erased. -/
theorem mem_block_optimized (os : List Options) {b : BlockRef} {i : InstrId} (hi : i ∈ (p.block b).instrs)
    (hop : (p.instr i).op = .store ∨ (p.instr i).op.isTerminator = true) :
    i ∈ ((p.optimized os).block b).instrs := by
  have hwf := (Program.wellFormed_of_parse h).1
  obtain ⟨ms, hms, -⟩ := simplifies_optimized hwf os
  have hvoid := isVoid_of_parse h hi hop
  have hkept : i ∈ (p.optimized os).effects b := by
    rw [hms.effects_eq hwf, List.mem_filter, Program.mem_effects, decide_eq_true_eq]
    refine ⟨⟨hi, ?_⟩, ?_⟩
    · rw [Instr.isPure, hvoid, Bool.not_true, Bool.and_false]
    · -- A merge is about instructions with a result.
      intro hfreed
      obtain ⟨m, hm, -, rfl⟩ := SiblingMerge.mem_freed.mp hfreed
      rw [(hms.first_of_mem hwf hm).1] at hvoid
      cases hvoid
  exact (Program.mem_effects.mp hkept).1

end Parsed

namespace Program

variable {p q : Program}

/-- If all jumps stay, every block ends as it did. -/
theorem Trims.terminator? (h : p.Trims q) (hp : p.Coherent) (hq : q.Coherent)
    (hjumps : ∀ b, ∀ i ∈ (p.block b).instrs, (p.instr i).op.isTerminator = true →
      i ∈ (q.block b).instrs) (b : BlockRef) : q.terminator? b = p.terminator? b := by
  have hop : ∀ i ∈ (q.block b).instrs, (q.instr i).op = (p.instr i).op := by
    intro i hi
    obtain ⟨ops, heq, -⟩ := h.instr b i hi
    rw [heq]
  apply Option.ext
  intro t
  rw [hp.terminator?_eq, hq.terminator?_eq, Option.filter_eq_some_iff, Option.filter_eq_some_iff]
  constructor
  · rintro ⟨hlast, ht⟩
    have hmem := List.mem_of_getLast? hlast
    rw [hop t hmem] at ht
    exact ⟨hp.last b t ((h.sublist b).subset hmem) ht, ht⟩
  · rintro ⟨hlast, ht⟩
    have hmem := hjumps b t (List.mem_of_getLast? hlast) ht
    rw [← hop t hmem] at ht
    exact ⟨hq.last b t hmem ht, ht⟩

/-- A program whose blocks end as they did has the same flow of control. -/
theorem Trims.successors (h : p.Trims q) (hq : q.Arranged)
    (hterminator : ∀ b, q.terminator? b = p.terminator? b) (b : BlockRef) : q.successors b = p.successors b := by
  unfold Program.successors
  rw [hterminator]
  cases ht : p.terminator? b with
  | none => rfl
  | some t =>
    rw [← hterminator, hq.terminator?_eq, Option.filter_eq_some_iff] at ht
    obtain ⟨ops, heq, -⟩ := h.instr b t (List.mem_of_getLast? ht.1)
    dsimp only
    rw [heq]

theorem Trims.predecessors (h : p.Trims q) (hsuccessors : ∀ b, q.successors b = p.successors b)
    (b : BlockRef) : q.predecessors b = p.predecessors b := by
  obtain ⟨blocks, hsize, heq⟩ := h.func b.func
  unfold Program.predecessors blockRefs
  rw [heq, hsize]
  refine List.filter_congr fun c _ => ?_
  rw [hsuccessors]

end Program

/-- **Runs on the program of an accepted text trim it, and keep all stores and jumps.**  Each jump has the
targets it had, so the flow of control between the blocks stays the same. -/
theorem optimized_trims {name : String} {src : ByteArray} {p : Program}
    (h : Program.parse name src = .ok p) (os : List Options) :
    p.Trims (p.optimized os) ∧
      (∀ b, ∀ i ∈ (p.block b).instrs,
        (p.instr i).op = .store ∨ (p.instr i).op.isTerminator = true →
        i ∈ ((p.optimized os).block b).instrs) ∧
      ∀ b, (p.optimized os).successors b = p.successors b ∧
        (p.optimized os).predecessors b = p.predecessors b := by
  have hwf := (Program.wellFormed_of_parse h).1
  obtain ⟨ms, hms, -⟩ := simplifies_optimized hwf os
  have htrims := hms.trims hwf
  have hcoherent := (hms.wellFormed hwf).toCoherent
  have hsuccessors := htrims.successors hcoherent.toArranged <|
    htrims.terminator? hwf.toCoherent hcoherent fun b i hi hop => mem_block_optimized h os hi (.inr hop)
  exact ⟨htrims, fun b i hi hop => mem_block_optimized h os hi hop,
    fun b => ⟨hsuccessors b, htrims.predecessors hsuccessors b⟩⟩

/-- A text with a constant sum and a loop. -/
def foldedLoop : ByteArray :=
  ("global @v : i32\nfunc @f(%a: i32) \x7b\nentry:\n    %p = add i32 1, 2\n    store i32 %p, @v\n" ++
    "    br loop\nloop:\n    %q = mul i32 %a, 3\n    condbr %a, loop, exit\nexit:\n    ret void\n" ++
    "\x7d\n").toUTF8

theorem optimized_trims_foldedLoop : ∃ p, Program.parse "m" foldedLoop = .ok p ∧
    (p.block ⟨0, 0⟩).instrs = [0, 1, 2] ∧
    ((p.optimized [{ constProp := false }]).block ⟨0, 0⟩).instrs = [1, 2] ∧
    p.Trims (p.optimized [{}, { verify := true }]) ∧
    1 ∈ ((p.optimized [{}, { verify := true }]).block ⟨0, 0⟩).instrs ∧
    (p.optimized [{}, { verify := true }]).successors ⟨0, 1⟩ = [⟨0, 1⟩, ⟨0, 2⟩] ∧
    (p.optimized [{}, { verify := true }]).predecessors ⟨0, 1⟩ = [⟨0, 0⟩, ⟨0, 1⟩] := by
  obtain ⟨p, hp, hfound⟩ : ∃ p, Program.parse "m" foldedLoop = .ok p ∧
      ((p.block ⟨0, 0⟩).instrs == [0, 1, 2] &&
        ((p.optimized [{ constProp := false }]).block ⟨0, 0⟩).instrs == [1, 2] &&
        (p.instr 1).op == .store && p.successors ⟨0, 1⟩ == [⟨0, 1⟩, ⟨0, 2⟩] &&
        p.predecessors ⟨0, 1⟩ == [⟨0, 0⟩, ⟨0, 1⟩]) = true :=
    Program.exists_of_parse (by decide +kernel)
  simp only [Bool.and_eq_true, beq_iff_eq] at hfound
  obtain ⟨⟨⟨⟨hbefore, hafter⟩, hstore⟩, hsuccessors⟩, hpredecessors⟩ := hfound
  obtain ⟨htrims, hkept, hflow⟩ := optimized_trims hp [{}, { verify := true }]
  refine ⟨p, hp, hbefore, hafter, htrims, hkept ⟨0, 0⟩ 1 ?_ (.inl hstore), ?_, ?_⟩
  · rw [hbefore]
    decide
  · rw [(hflow ⟨0, 1⟩).1, hsuccessors]
  · rw [(hflow ⟨0, 1⟩).2, hpredecessors]

/-! ### Calls -/

/-- The calls of a block, with the functions they call. -/
def Program.calls (p : Program) (b : BlockRef) : List (InstrId × String) :=
  ((p.block b).instrs.filter fun i => (p.instr i).op = .call).map fun i => (i, (p.instr i).callee)

/-- Calls are among the instructions with an effect. -/
theorem Program.calls_eq (p : Program) (b : BlockRef) : p.calls b =
    ((p.effects b).filter fun i => (p.instr i).op = .call).map fun i => (i, (p.instr i).callee) := by
  unfold calls
  rw [p.filter_effects b (c := fun x => x.op = .call)]
  intro x hx
  simp [Instr.isPure, of_decide_eq_true hx, Opcode.hasSideEffects]

/-- **No call is lost but what merges left without a use.** -/
theorem Simplifies.calls_eq {ms : List SiblingMerge} {p q : Program} (h : Simplifies ms p q)
    (hp : p.WellFormed) (b : BlockRef) :
    q.calls b = (p.calls b).filter fun c => c.1 ∉ SiblingMerge.freed ms := by
  -- What is still there is what it was.
  have hinstr : ∀ i ∈ q.effects b, (q.instr i).op = (p.instr i).op ∧
      (q.instr i).callee = (p.instr i).callee := by
    intro i hi
    obtain ⟨ops, heq, -⟩ := (h.trims hp).instr b i (Program.mem_effects.mp hi).1
    rw [heq]
    exact ⟨rfl, rfl⟩
  have hq : q.calls b = ((q.effects b).filter fun i => (p.instr i).op = .call).map
      fun i => (i, (p.instr i).callee) := by
    rw [Program.calls_eq, List.filter_congr fun i hi => by rw [(hinstr i hi).1]]
    refine List.map_congr_left fun i hi => ?_
    rw [(hinstr i (List.mem_filter.mp hi).1).2]
  rw [hq, h.effects_eq hp, p.calls_eq, List.filter_map, List.filter_filter, List.filter_filter]
  refine congrArg _ (List.filter_congr fun i _ => ?_)
  rw [Bool.and_comm]
  rfl

/-- **Runs on the program of an accepted text keep all calls of every block, in their order, but those
that a merge left without a use.**  Without the walk there are no merges.  A call that goes has a result
and arguments; it was both operands of an instruction, or the first operand of an instruction that was
its own second one.  If it was both operands, it does go. -/
theorem calls_optimized {name : String} {src : ByteArray} {p : Program}
    (h : Program.parse name src = .ok p) (os : List Options) :
    ∃ ms, Simplifies ms p (p.optimized os) ∧ ((∀ o ∈ os, o.peephole = false) → ms = []) ∧
      (∀ b, (p.optimized os).calls b = (p.calls b).filter fun c => c.1 ∉ SiblingMerge.freed ms) ∧
      ∀ m ∈ ms, ((p.instr m.first).ty.isVoid = false ∧ (p.instr m.first).operands ≠ []) ∧
        (m.Frees → m.first = m.second ∨ m.user = m.second) ∧ (m.first = m.second → m.Frees) := by
  have hwf := (Program.wellFormed_of_parse h).1
  obtain ⟨ms, hms, hoff⟩ := simplifies_optimized hwf os
  refine ⟨ms, hms, hoff, hms.calls_eq hwf, fun m hm => ?_⟩
  obtain ⟨⟨ms', hbefore⟩, hfits⟩ := hms.of_mem hm
  exact ⟨hms.first_of_mem hwf hm, hfits.eq_of_frees (hbefore.wellFormed hwf), hfits.frees⟩

/-- A text with a call whose result is both operands of a sum. -/
def doubledCall : ByteArray :=
  ("func @f(%a: i32) : i32 \x7b\nentry:\n    %x = call i32 @g(%a)\n    %y = add i32 %x, %x\n" ++
    "    ret i32 %y\n\x7d\n").toUTF8

theorem calls_optimized_doubledCall : ∃ p, Program.parse "m" doubledCall = .ok p ∧
    p.calls ⟨0, 0⟩ = [(0, "g")] ∧ (p.optimized [{ constProp := false }]).calls ⟨0, 0⟩ = [] ∧
    (∃ ms, Simplifies ms p (p.optimized [{ constProp := false }]) ∧ 0 ∈ SiblingMerge.freed ms) ∧
    (p.optimized [{ peephole := false }]).calls ⟨0, 0⟩ = [(0, "g")] := by
  obtain ⟨p, hp, hfound⟩ : ∃ p, Program.parse "m" doubledCall = .ok p ∧
      (p.calls ⟨0, 0⟩ == [(0, "g")] &&
        (p.optimized [{ constProp := false }]).calls ⟨0, 0⟩ == []) = true :=
    Program.exists_of_parse (by decide +kernel)
  simp only [Bool.and_eq_true, beq_iff_eq] at hfound
  obtain ⟨hbefore, hafter⟩ := hfound
  obtain ⟨ms, hms, -, hcalls, -⟩ := calls_optimized hp [{ constProp := false }]
  obtain ⟨ms', -, hoff, hcalls', -⟩ := calls_optimized hp [{ peephole := false }]
  refine ⟨p, hp, hbefore, hafter, ⟨ms, hms, ?_⟩, ?_⟩
  · have hgone := hcalls ⟨0, 0⟩
    rw [hafter, hbefore] at hgone
    simpa using hgone.symm
  · rw [hcalls' ⟨0, 0⟩, hoff (by simp), hbefore]
    rfl

end Midend
