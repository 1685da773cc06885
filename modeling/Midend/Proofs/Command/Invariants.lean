import Mathlib.Data.List.TakeWhile
import Midend.Proofs.Flow.SolverRounds
import Midend.Proofs.Pass.Simplifications

/-!
# Properties that everything keeps

A property of programs that the primitive operations keep is kept by whatever can be done to a program,
by hand or by the optimizer, and whether it fails or not.  A call that fails may have done a part of its
work, so the primitive operations are those between which a call can stop.

The passes come first, for a property that is known to be kept by the simplifications or by moving uses.

## Main definitions

* `Session.Has`, `Workbench.Has`: the program at hand has a property.
* `Program.Robust`: a property that the operations keep of which the simplifications are made up.
* `Program.Stable`: a property that the primitive operations keep.
* `Command.IsComplete`: the command passes no missing operand and no missing replacement.
* `Command.GivesOperands`: the command gives operands to an instruction.

## Main results

* `Pass.keeps_walk`, `Pass.keeps_sweep`, `Pass.keeps_constProp`, `Pass.keeps_optimizePass`: the passes.
* `Program.Stable.keeps_run`: every command keeps a stable property.
-/

namespace Midend

/-- The program of a session has a property. -/
def Session.Has (I : Program → Prop) (s : Session) : Prop := I s.program

/-- The program on a workbench has a property. -/
def Workbench.Has (I : Program → Prop) (w : Workbench) : Prop := I w.program

/-! ### Passes -/

namespace Pass

variable {I : Program → Prop}

theorem keeps_edit {α : Type} {e : Edit α} (h : Act.Keeps I e) :
    Act.Keeps (Session.Has I) (Pass.edit e) := by
  intro s hs
  rw [Pass.ensures_edit]
  exact h s.program hs

theorem keeps_program : Act.Keeps (Session.Has I) Pass.program := fun _ hs => hs

theorem keeps_count (f : Stats → Stats) : Act.Keeps (Session.Has I) (Pass.count f) :=
  .modify fun _ hs => hs

theorem keeps_visit (v : Visit) : Act.Keeps (Session.Has I) (Pass.visit v) :=
  .modify fun _ hs => hs

theorem keeps_log (r : LogRecord) : Act.Keeps (Session.Has I) (Pass.log r) :=
  .modify fun _ hs => hs

theorem keeps_logChange (message pass : String) (b : BlockRef) (v : Value)
    (more : List (String × String)) :
    Act.Keeps (Session.Has I) (Pass.logChange message pass b v more) :=
  keeps_program.bind fun _ => keeps_log _

theorem keeps_anyOf {α : Type} {f : α → Pass Bool} (hf : ∀ a, Act.Keeps (Session.Has I) (f a))
    (l : List α) : Act.Keeps (Session.Has I) (Pass.anyOf f l) := by
  induction l with
  | nil => exact .pure _
  | cons a l ih => exact (hf a).bind fun _ => ih.bind fun _ => .pure _

/-- Folding yields the instruction itself or a constant. -/
theorem succeeds_constFold_value (i : InstrId) (p : Program) :
    (constFold i).Succeeds p fun v _ => v = .instr i ∨ ∃ c, v = .const c := by
  unfold Act.Succeeds Act.Ensures
  cases hc : foldedConst? p i with
  | none =>
    rw [Program.constFold_run_none hc]
    exact .inl rfl
  | some c =>
    rw [Program.constFold_run hc]
    exact .inr ⟨_, rfl⟩

/-- A step of the walk keeps what the simplifications of that instruction keep. -/
theorem keeps_visitInstr (b : BlockRef) (i : InstrId) (hdce : Act.Keeps I (dce i))
    (hfold : Act.Keeps I (constFold i)) (hcse : Act.Keeps I (cse (some (.instr i)))) :
    Act.Keeps (Session.Has I) (visitInstr b i) := by
  refine keeps_program.bind fun p => ?_
  split
  · exact .pure _
  refine (keeps_edit hdce).bind fun erased => ?_
  split
  · exact (keeps_count _).bind fun _ => (keeps_logChange _ _ _ _ _).bind fun _ => .pure _
  have hmerge : ∀ v, v = .instr i ∨ (∃ c, v = .const c) → Act.Keeps (Session.Has I) (do
      let merged ← Pass.edit (cse (some v))
      if merged then
        Pass.count fun s => { s with cse := s.cse + 1 }
        Pass.logChange "merged sibling operands" "cse" b v []
      return decide (v ≠ .instr i) || merged) := by
    intro v hv
    have hcse' : Act.Keeps I (cse (some v)) := by
      rcases hv with rfl | ⟨c, rfl⟩
      · exact hcse
      · exact .pure false
    refine (keeps_edit hcse').bind fun merged => ?_
    dsimp only
    split
    · exact (keeps_count _).bind fun _ => (keeps_logChange _ _ _ _ _).bind fun _ => .pure _
    · exact .pure _
  intro s hs
  rw [Act.ensures_bind, Pass.ensures_edit]
  have hfolded := (hfold s.program hs).and (succeeds_constFold_value i s.program)
  refine hfolded.mono (fun v q hv => ?_) fun _ _ hf => hf.1
  dsimp only
  split
  · exact ((keeps_count _).bind fun _ => keeps_program.bind fun _ =>
      (keeps_logChange _ _ _ _ _).bind fun _ => hmerge v hv.2) _ hv.1
  · exact hmerge v hv.2 _ hv.1

section Walk

variable {C : InstrId → Prop} (hdce : ∀ i, C i → Act.Keeps I (dce i))
  (hfold : ∀ i, C i → Act.Keeps I (constFold i))
  (hcse : ∀ i, C i → Act.Keeps I (cse (some (.instr i))))

include hdce hfold hcse

/-- The walk meets no other instructions than those of a class that leads on within itself. -/
theorem keeps_walkFrom (hnext : ∀ p, I p → ∀ i, C i → ∀ n, p.next? i = some n → C n) (b : BlockRef)
    (fuel : Nat) (cursor : Option InstrId) (hcursor : ∀ i, cursor = some i → C i) :
    Act.Keeps (Session.Has I) (walkFrom b fuel cursor) := by
  induction fuel generalizing cursor with
  | zero =>
    cases cursor with
    | none => exact .pure _
    | some i => exact .throw _
  | succ fuel ih =>
    cases cursor with
    | none => exact .pure _
    | some i =>
      have hi := hcursor i rfl
      intro s hs
      rw [walkFrom, Act.ensures_bind, Pass.ensures_program]
      exact ((keeps_visitInstr b i (hdce i hi) (hfold i hi) (hcse i hi)).bind fun _ =>
        (ih _ (hnext s.program hs i hi)).bind fun _ => .pure _) s hs

end Walk

section WholeWalk

variable (hdce : ∀ i, Act.Keeps I (dce i)) (hfold : ∀ i, Act.Keeps I (constFold i))
  (hcse : ∀ v, Act.Keeps I (cse (some v)))

include hdce hfold hcse

theorem keeps_walkBlock (b : BlockRef) : Act.Keeps (Session.Has I) (walkBlock b) :=
  keeps_program.bind fun _ => (keeps_visit _).bind fun _ =>
    keeps_walkFrom (C := fun _ => True) (fun i _ => hdce i) (fun i _ => hfold i)
      (fun i _ => hcse (.instr i)) (fun _ _ _ _ _ _ => trivial) b _ _ fun _ _ => trivial

theorem keeps_peephole (f : FuncId) : Act.Keeps (Session.Has I) (peephole f) :=
  keeps_program.bind fun _ => keeps_anyOf (keeps_walkBlock hdce hfold hcse) _

/-- The walk keeps what the simplifications keep. -/
theorem keeps_walk : Act.Keeps (Session.Has I) walk :=
  keeps_program.bind fun _ => keeps_anyOf (fun f => keeps_program.bind fun _ =>
    (keeps_visit _).bind fun _ => keeps_peephole hdce hfold hcse f) _

end WholeWalk

section Sweep

variable (hdce : ∀ i, Act.Keeps I (dce i))

include hdce

theorem keeps_sweepFrom (fuel : Nat) (queue : List InstrId) :
    Act.Keeps (Session.Has I) (sweepFrom fuel queue) := by
  induction fuel generalizing queue with
  | zero =>
    cases queue with
    | nil => exact .pure _
    | cons i queue => exact .throw _
  | succ fuel ih =>
    cases queue with
    | nil => exact .pure _
    | cons i queue =>
      refine keeps_program.bind fun p => (keeps_edit (hdce i)).bind fun erased => ?_
      split
      · exact .bind (.demand _) fun _ => (keeps_logChange _ _ _ _ _).bind fun _ =>
          (ih _).bind fun _ => .pure _
      · exact ih _

/-- The sweep keeps what the erasing of dead instructions keeps. -/
theorem keeps_sweep (f : FuncId) : Act.Keeps (Session.Has I) (sweep f) :=
  keeps_program.bind fun _ => (keeps_sweepFrom hdce _ _).bind fun _ =>
    (keeps_count _).bind fun _ => .pure _

end Sweep

section Propagation

variable (hmove : ∀ old new, Act.Keeps I (replaceAllUses old (some new)))

include hmove

theorem keeps_propagateStore (b : BlockRef) (i : InstrId) :
    Act.Keeps (Session.Has I) (propagateStore b i) := by
  have hoperand : ∀ k, Act.Keeps I (operandAt i k) := by
    intro k
    refine .bind .get fun p => ?_
    dsimp only
    split
    · exact .throw _
    · exact .demand _
  have hpointer : Act.Keeps I (pointer i) := by
    refine .bind .get fun p => ?_
    dsimp only
    split
    · exact hoperand 0
    · exact hoperand 1
    · exact .throw _
  have hvalue : Act.Keeps I (storeValue i) := by
    refine .bind .get fun p => ?_
    dsimp only
    split
    · exact hoperand 0
    · exact .throw _
  refine (keeps_edit hpointer).bind fun ptr => (keeps_edit hvalue).bind fun val => ?_
  split
  · next c =>
    split
    · exact (keeps_count _).bind fun _ => (keeps_edit (hmove ptr (.const c))).bind fun _ =>
        .bind (.demand ptr) fun _ => keeps_program.bind fun _ => keeps_logChange _ _ _ _ _
    · exact .pure _
  · exact .pure _

theorem keeps_propagateInstr {n : Nat} (b : BlockRef) (out : Flow.InstrSet n) (i : InstrId) :
    Act.Keeps (Session.Has I) (propagateInstr b out i) := by
  refine keeps_program.bind fun p => ?_
  dsimp only
  split
  · exact keeps_propagateStore hmove b i
  · split
    · exact .pure _
    · next d _ =>
      have hreplace : Act.Keeps (Session.Has I) (do
          Pass.edit (replaceAllUses (some (.instr i)) (some (.instr d)))
          Pass.logChange "replaced instruction with reaching store" "constprop" b (.instr i)
            [("store", ((← Pass.program).instr d).label)]) :=
        (keeps_edit (hmove _ _)).bind fun _ => keeps_program.bind fun _ =>
          keeps_logChange _ _ _ _ _
      split
      · exact (keeps_count _).bind fun _ => hreplace
      · exact hreplace

theorem keeps_propagateBlock {n : Nat} (b : BlockRef) (out : Flow.InstrSet n) :
    Act.Keeps (Session.Has I) (propagateBlock b out) := by
  have hinstrs : ∀ l, Act.Keeps (Session.Has I) (propagateInstrs b out l) := by
    intro l
    induction l with
    | nil => exact .pure _
    | cons i l ih => exact (keeps_propagateInstr hmove b out i).bind fun _ => ih
  exact keeps_program.bind fun p => hinstrs _

omit hmove in
/-- The solver itself only reads; what its callback keeps, it keeps. -/
theorem keeps_solveReachingStores (p : Program) (f : FuncId)
    {onChange : BlockRef → Flow.InstrSet p.instrs.size → Pass Unit}
    (h : ∀ b out, Act.Keeps (Session.Has I) (onChange b out)) :
    Act.Keeps (Session.Has I) (Flow.solveReachingStores p f Session.program onChange) := by
  have hofExcept : ∀ {α : Type} (r : Except Fault α),
      Act.Keeps (Session.Has I) (Act.ofExcept r : Pass α) := by
    intro α r
    cases r with
    | error e => exact fun _ hs => hs
    | ok a => exact fun _ hs => hs
  refine (hofExcept _).bind fun g s hs => ?_
  refine Flow.ensures_solveFrom _ p g onChange (fun _ _ s => s.Has I) ?_ ?_ _ _ s hs
  · intro _ _ _ _ _ hs
    exact hs
  · intro sol b stack s old _ hs
    refine (hofExcept _ s hs).mono (fun kill s hs => ⟨fun _ => hs, fun _ _ => ?_, fun _ _ => hs⟩)
      fun _ _ => id
    exact h b _ s hs

omit hmove in
/-- Behind the solver nothing happens to the program. -/
theorem keeps_constProp_of_solve (f : FuncId)
    (h : ∀ s, s.Has I → (Flow.solveReachingStores s.program f Session.program propagateBlock).Ensures s
      (fun _ => Session.Has I) fun _ => Session.Has I) :
    Act.Keeps (Session.Has I) (constProp f) := by
  have hunreachable : ∀ l, Act.Keeps (Session.Has I) (logUnreachable f l) := by
    intro l
    induction l with
    | nil => exact .pure _
    | cons b l ih => exact keeps_program.bind fun _ => (keeps_log _).bind fun _ => ih
  intro s hs
  unfold constProp
  rw [Act.ensures_bind, Act.ensures_get, Act.ensures_bind, Pass.ensures_program, Act.ensures_bind]
  refine (h s hs).mono (fun sol t ht => ?_) fun _ _ => id
  exact (hunreachable _).bind (fun _ => (keeps_count _).bind fun _ => .bind .get fun _ => .pure _) t ht

/-- The propagation keeps what moving uses to a value keeps. -/
theorem keeps_constProp (f : FuncId) : Act.Keeps (Session.Has I) (constProp f) :=
  keeps_constProp_of_solve f fun s hs =>
    keeps_solveReachingStores s.program f (fun b out => keeps_propagateBlock hmove b out) s hs

end Propagation

theorem composable_keeps : Composable fun _ {_} m => Act.Keeps (Session.Has I) m where
  pure := .pure
  bind := .bind
  mono hm _ := hm
  get := .get
  program := keeps_program
  log := keeps_log
  round := keeps_count _

/-- A run of the optimizer keeps what its passes keep; the walk counts only if it is switched on. -/
theorem keeps_optimizePass {o : Options}
    (hwalk : o.peephole = true → Act.Keeps (Session.Has I) walk)
    (hprop : ∀ f, Act.Keeps (Session.Has I) (constProp f))
    (hsweep : ∀ f, Act.Keeps (Session.Has I) (sweep f)) :
    Act.Keeps (Session.Has I) (optimizePass o) :=
  composable_keeps.optimizing hprop hsweep hwalk

end Pass

/-! ### Stable properties -/

namespace Program

/-- What is left when all uses of a value were to go to a missing one: the value lists no uses any
more, and the first slot is empty. -/
def abandon (p : Program) (v : Value) : Program :=
  let q := { p with uses := p.uses.set v [] }
  match p.usesOf v with
  | [] => q
  | slot :: _ => q.writeSlot slot none

/-- Setting the element type of an instruction touches nothing else. -/
theorem exists_instr_setElem (p : Program) (i : InstrId) (ty : Ty) (j : InstrId) :
    ∃ elem, (p.modifyInstr i fun x => { x with elem := ty }).instr j =
      { p.instr j with elem := elem } := by
  rw [instr_modifyInstr]
  split
  · next hij =>
    subst hij
    exact ⟨ty, rfl⟩
  · exact ⟨_, rfl⟩

/-- A property that the operations keep of which the simplifications are made up.  If `complete` holds,
slots are never empty. -/
structure Robust (complete : Prop) (I : Program → Prop) : Prop where
  addConst : ∀ p c, I p → I { p with consts := p.consts.push c }
  replaceOperand : ∀ p slot v, slot.index < (p.instr slot.user).operands.length → I p →
    I (p.replaceOperand slot v)
  redirect : ∀ p old new, I p → I (p.redirect old new)
  abandon : ¬ complete → ∀ p v, I p → I (p.abandon v)
  detach : ∀ p i, (p.instr i).isErased = false → p.usesOf (.instr i) = [] → I p → I (p.detach i)
  filled : complete → ∀ p, I p → ∀ i, none ∉ (p.instr i).operands

namespace Robust

variable {complete : Prop} {I : Program → Prop} (h : Robust complete I)

include h

/-! ### Simplifications -/

theorem keeps_replaceAllUses (old : Option Value) {new : Option Value}
    (hnew : complete → new ≠ none) : Act.Keeps I (replaceAllUses old new) := by
  intro p hp
  cases old with
  | none =>
    unfold replaceAllUses
    split
    · exact hp
    · exact hp
  | some v =>
    cases new with
    | some w =>
      unfold Act.Ensures
      rw [replaceAllUses_run]
      exact h.redirect p v w hp
    | none =>
      have habandon := h.abandon (fun hc => hnew hc rfl) p v hp
      unfold replaceAllUses
      rw [if_neg (Option.some_ne_none v), Act.ensures_bind, Act.ensures_demand_some, Act.ensures_bind,
        Act.ensures_get, Act.ensures_bind, Act.ensures_modify]
      unfold Program.abandon at habandon
      cases huses : p.usesOf v with
      | nil =>
        rw [huses] at habandon
        exact habandon
      | cons slot slots =>
        rw [huses] at habandon
        exact habandon

theorem keeps_erase (i : InstrId) : Act.Keeps I (erase i) := by
  intro p hp
  unfold Act.Ensures
  rw [erase_run]
  by_cases herased : (p.instr i).isErased = true
  · rw [if_pos herased]
    exact hp
  · rw [if_neg herased]
    by_cases huses : p.usesOf (.instr i) ≠ []
    · rw [if_pos huses]
      exact hp
    · rw [if_neg huses]
      exact h.detach p i (Bool.eq_false_iff.mpr herased) (Classical.not_not.mp huses) hp

theorem keeps_forceErase (i : InstrId) : Act.Keeps I (forceErase i) := by
  refine (h.keeps_erase i).bind fun outcome => ?_
  cases outcome with
  | erased => exact .pure _
  | inUse label uses => exact .throw _

theorem keeps_setOperand (i : InstrId) (index : Int) (v : Option Value) :
    Act.Keeps I (setOperand i index v) := by
  intro p hp
  cases v with
  | none => exact hp
  | some v =>
    unfold setOperand operandAt
    simp only [Act.ensures_bind, Act.ensures_discard, Act.ensures_get]
    split
    · exact hp
    · cases hslot : (p.instr i).operands[index.toNat]? with
      | none => exact hp
      | some old =>
        have hlt : (⟨i, index.toNat⟩ : Use).index < (p.instr i).operands.length :=
          (List.getElem?_eq_some_iff.mp hslot).1
        exact h.replaceOperand p _ v hlt hp

theorem keeps_dce (i : InstrId) : Act.Keeps I (dce i) := by
  refine .bind .get fun p => ?_
  dsimp only
  split
  · exact .pure _
  · exact (h.keeps_forceErase i).bind fun _ => .pure _

theorem keeps_constFold (i : InstrId) : Act.Keeps I (constFold i) := by
  refine .bind .get fun p => ?_
  split
  · exact .pure _
  · next c _ =>
    refine .bind (.modifyGet fun q hq => h.addConst q c hq) fun id => ?_
    exact (h.keeps_replaceAllUses _ fun _ => Option.some_ne_none _).bind fun _ =>
      (h.keeps_forceErase i).bind fun _ => .pure _

theorem keeps_cse (v : Option Value) : Act.Keeps I (cse v) := by
  intro p hp
  unfold cse
  split
  · next i =>
    rw [Act.ensures_bind, Act.ensures_get]
    split
    · exact hp
    · next a b hsib =>
      -- What goes from the first operand to the users of the second is there.
      have hfirst : complete → (p.instr a).operands.head?.join ≠ none := by
        intro hc
        obtain ⟨-, hne, -⟩ := operands_of_siblings hsib
        obtain ⟨w, rest, hops⟩ := List.exists_cons_of_ne_nil hne
        rw [hops]
        rintro rfl
        refine h.filled hc p hp a ?_
        rw [hops]
        exact List.mem_cons_self
      simp only [Act.ensures_bind, Act.ensures_get]
      refine (h.keeps_replaceAllUses _ hfirst p hp).mono (fun _ p₁ h₁ => ?_) fun _ _ => id
      refine (h.keeps_setOperand b 0 _ p₁ h₁).mono (fun _ p₂ h₂ => ?_) fun _ _ => id
      refine ((h.keeps_erase a).discard p₂ h₂).mono (fun _ p₃ h₃ => ?_) fun _ _ => id
      split
      · next t _ => exact (h.keeps_dce t).discard.bind (fun _ => .pure _) p₃ h₃
      · exact h₃
  · exact hp

theorem keeps_visitInstr (b : BlockRef) (i : InstrId) : Act.Keeps (Session.Has I) (visitInstr b i) :=
  Pass.keeps_visitInstr b i (h.keeps_dce i) (h.keeps_constFold i) (h.keeps_cse _)

theorem keeps_walkBlock (b : BlockRef) : Act.Keeps (Session.Has I) (walkBlock b) :=
  Pass.keeps_walkBlock h.keeps_dce h.keeps_constFold (fun v => h.keeps_cse (some v)) b

end Robust

/-- A property that the primitive operations keep.  If `complete` holds, nothing missing is ever passed
on; operands are given to erased instructions only if these are `spared`. -/
structure Stable (complete : Prop) (spared : InstrId → Prop) (I : Program → Prop) : Prop where
  addGlobal : ∀ p name elem, I p → I (p.addGlobal name elem).2
  addFunc : ∀ p name ret, I p → I (p.addFunc name ret).2
  addParam : ∀ p f name ty, I p → I (p.addParam f name ty).2
  addBlock : ∀ p f name, I p → I (p.addBlock f name).2
  addConst : ∀ p c, I p → I { p with consts := p.consts.push c }
  /-- An instruction is made loose and without operands. -/
  addInstr : ∀ p x, x.operands = [] → x.place = .detached → I p → I (p.addInstr x).2
  setElem : ∀ p i ty, I p → I (p.modifyInstr i fun x => { x with elem := ty })
  /-- All operands of an instruction are replaced. -/
  assign : ∀ p i vs, (complete → none ∉ vs) →
    (vs ≠ [] → spared i ∨ (p.instr i).isErased = false) → I p →
    I ((p.dropOperands i).assignOperands i vs)
  replaceOperand : ∀ p slot v, slot.index < (p.instr slot.user).operands.length → I p →
    I (p.replaceOperand slot v)
  redirect : ∀ p old new, I p → I (p.redirect old new)
  abandon : ¬ complete → ∀ p v, I p → I (p.abandon v)
  /-- A loose instruction is put at the end of a block. -/
  append : ∀ p b i, p.HasBlock b → (p.instr i).place = .detached → I p → I (p.appendTo b i)
  /-- A loose instruction is put before one that is in the block. -/
  insertBefore : ∀ p b i pos, (p.instr i).place = .detached → (p.instr pos).place = .inBlock b →
    I p → I (p.insertInto b i pos)
  detach : ∀ p i, (p.instr i).isErased = false → p.usesOf (.instr i) = [] → I p → I (p.detach i)
  /-- Slots are never empty, if nothing missing is passed on. -/
  filled : complete → ∀ p, I p → ∀ i, none ∉ (p.instr i).operands

namespace Stable

variable {complete : Prop} {spared : InstrId → Prop} {I : Program → Prop}
  (h : Stable complete spared I)

include h

theorem robust : Robust complete I :=
  ⟨h.addConst, h.replaceOperand, h.redirect, h.abandon, h.detach, h.filled⟩

/-! ### Edits -/

theorem ensures_setOperands {p : Program} {i : InstrId} {vs : List (Option Value)} (hp : I p)
    (hvs : complete → none ∉ vs) (hi : vs ≠ [] → spared i ∨ (p.instr i).isErased = false) :
    (setOperands i vs).Ensures p (fun _ => I) fun _ => I := by
  have hassign := h.assign p i (vs.takeWhile Option.isSome ++
    List.replicate (vs.length - (vs.takeWhile Option.isSome).length) none) ?_ ?_ hp
  · unfold setOperands
    simp only [Act.ensures_bind, Act.ensures_modify]
    split
    · exact hassign
    · exact hassign
  · -- Where nothing is missing, nothing is filled up.
    intro hc
    have hall : vs.takeWhile Option.isSome = vs := by
      rw [List.takeWhile_eq_self_iff]
      intro v hv
      exact Option.isSome_iff_ne_none.mpr fun hnone => hvs hc (hnone ▸ hv)
    rw [hall, Nat.sub_self, List.replicate_zero, List.append_nil]
    exact hvs hc
  · intro hne
    refine hi fun hnil => hne ?_
    rw [hnil]
    rfl

theorem keeps_newInstr {x : Instr} {vs : List (Option Value)} (hvs : complete → none ∉ vs)
    (hops : x.operands = []) (hplace : x.place = .detached) : Act.Keeps I (newInstr x vs) := by
  intro p hp
  have hnew : (p.addInstr x).2.instr (p.addInstr x).1 = x := by
    change (p.instrs.push x).get p.instrs.size = x
    rw [Table.get_push, if_pos rfl]
  unfold newInstr
  rw [Act.ensures_bind, Act.ensures_modifyGet, Act.ensures_bind]
  refine h.ensures_setOperands (h.addInstr p x hops hplace hp) hvs fun _ => .inr ?_
  rw [hnew, Instr.isErased, hplace]
  rfl

theorem keeps_append (b : BlockRef) (i : InstrId) : Act.Keeps I (Midend.append b i) := by
  intro p hp
  unfold Midend.append checkDetached
  simp only [Act.ensures_bind, Act.ensures_get]
  split
  · exact hp
  · next hplace =>
    show Act.Ensures (if _ then _ else _ : Edit Unit) p _ _
    split
    · exact hp
    · next hb => exact h.append p b i (Classical.not_not.mp hb) (Classical.not_not.mp hplace) hp

theorem keeps_insertBefore (b : BlockRef) (i pos : Option InstrId) :
    Act.Keeps I (Midend.insertBefore b i pos) := by
  intro p hp
  unfold Midend.insertBefore
  cases pos with
  | none => exact hp
  | some pos =>
    rw [Act.ensures_bind, Act.ensures_demand_some, Act.ensures_bind, Act.ensures_get]
    split
    · exact hp
    · next hpos =>
      cases i with
      | none => exact hp
      | some i =>
        unfold checkDetached
        simp only [Act.ensures_bind, Act.ensures_demand_some, Act.ensures_get]
        split
        · exact hp
        · next hplace =>
          exact h.insertBefore p b i pos (Classical.not_not.mp hplace)
            (Classical.not_not.mp hpos) hp

/-! ### Emitting -/

omit h in
theorem keeps_operandType (v : Option Value) : Act.Keeps I (operandType v) :=
  .bind (.demand v) fun _ => .bind .get fun _ => .pure _

theorem keeps_emit (at? : InsertionPoint) (i : InstrId) : Act.Keeps I (emit at? i) := by
  intro p hp
  unfold emit
  cases at? with
  | none => exact hp
  | some b =>
    rw [Act.ensures_bind, Act.ensures_demand_some, Act.ensures_bind, Act.ensures_get]
    split
    · exact hp
    · exact (h.keeps_append b i).bind (fun _ => .pure _) p hp

/-- Emits an instruction that was just made. -/
theorem keeps_emit_newInstr (at? : InsertionPoint) {x : Instr} {vs : List (Option Value)}
    (hvs : complete → none ∉ vs) (hops : x.operands = []) (hplace : x.place = .detached) :
    Act.Keeps I (newInstr x vs >>= emit at?) :=
  (h.keeps_newInstr hvs hops hplace).bind fun i => h.keeps_emit at? i

theorem keeps_emitBinary (at? : InsertionPoint) (op : Opcode) (name : String) {x y : Option Value}
    (hxy : complete → none ∉ [x, y]) : Act.Keeps I (emitBinary at? op name x y) := by
  have hrest : Act.Keeps I (do
      let ty ← operandType x
      emit at? (← newInstr { op := op, ty := ty, name := name } [x, y])) :=
    (keeps_operandType _).bind fun ty => h.keeps_emit_newInstr at? hxy rfl rfl
  unfold emitBinary
  split
  · exact .bind (.throw _) fun _ => hrest
  · exact hrest

/-- Emits an instruction that takes an element type from one of its operands. -/
theorem keeps_emit_setElem (at? : InsertionPoint) {x : Instr} {vs : List (Option Value)}
    (v : Option Value) (hvs : complete → none ∉ vs) (hops : x.operands = [])
    (hplace : x.place = .detached) : Act.Keeps I (do
      let i ← newInstr x vs
      let ty ← operandType v
      modify (·.modifyInstr i fun c => { c with elem := ty })
      emit at? i : Edit InstrId) :=
  (h.keeps_newInstr hvs hops hplace).bind fun i => (keeps_operandType v).bind fun ty =>
    .bind (.modify fun p hp => h.setElem p i ty hp) fun _ => h.keeps_emit at? i

theorem keeps_walk : Act.Keeps (Session.Has I) walk :=
  Pass.keeps_walk h.robust.keeps_dce h.robust.keeps_constFold fun v => h.robust.keeps_cse (some v)

theorem keeps_constProp (f : FuncId) : Act.Keeps (Session.Has I) (constProp f) :=
  Pass.keeps_constProp
    (fun old _ => h.robust.keeps_replaceAllUses old fun _ => Option.some_ne_none _) f

theorem keeps_sweep (f : FuncId) : Act.Keeps (Session.Has I) (sweep f) :=
  Pass.keeps_sweep h.robust.keeps_dce f

end Stable

end Program

/-! ### Commands -/

/-- The values a command passes as operands or as a replacement.  A return may go without a
value. -/
def Command.passed : Command → List (Option Value)
  | .newInstr _ vs | .call _ _ _ vs | .setOperands _ vs => vs
  | .binary _ _ x y | .cmp _ x y | .store x y => [x, y]
  | .load _ _ v | .condBr v _ _ | .setOperand _ _ v | .replaceAllUses _ v => [v]
  | _ => []

/-- No operand and no replacement is missing. -/
def Command.IsComplete (c : Command) : Prop := none ∉ c.passed

instance (c : Command) : Decidable c.IsComplete := inferInstanceAs (Decidable (none ∉ c.passed))

/-- The command gives operands to an instruction that is there already. -/
def Command.GivesOperands (c : Command) (i : InstrId) : Prop :=
  ∃ vs, c = .setOperands (some i) vs ∧ vs ≠ []

section Commands

variable {I : Program → Prop}

namespace Workbench

theorem keeps_edit {α : Type} {e : Edit α} (h : Act.Keeps I e) : Act.Keeps (Has I) (edit e) := by
  intro w hw
  rw [ensures_edit]
  exact h w.program hw

theorem keeps_emitting {e : InsertionPoint → Edit InstrId} (h : ∀ at?, Act.Keeps I (e at?)) :
    Act.Keeps (Has I) (emitting e) := by
  intro w hw
  unfold emitting
  rw [Act.ensures_bind, Act.ensures_get]
  exact (keeps_edit (h w.insertAt)).bind (fun _ => .pure _) w hw

theorem keeps_runPass {α : Type} {pass : Pass α} (h : Act.Keeps (Session.Has I) pass) :
    Act.Keeps (Has I) (runPass pass) := by
  intro w hw
  rw [ensures_runPass]
  exact h { program := w.program } hw

/-- An edit of an instruction that may be missing. -/
theorem keeps_demanded {α : Type} {e : InstrId → Edit α} (h : ∀ i, Act.Keeps I (e i))
    (i : Option InstrId) : Act.Keeps (Has I) (edit (Act.demand i >>= e)) :=
  keeps_edit (.bind (.demand i) h)

end Workbench

variable {complete : Prop} {spared : InstrId → Prop}

open Workbench in
/-- **Every command keeps a stable property,** whether it fails or not, if it is complete where that
is asked for and gives operands to spared instructions only. -/
theorem Program.Stable.keeps_run (h : Stable complete spared I) {c : Command}
    (hc : complete → c.IsComplete) (hgive : ∀ i, c.GivesOperands i → spared i) :
    Act.Keeps (Workbench.Has I) c.run := by
  intro w hw
  cases c <;> rw [Command.run]
  case addGlobal name elem =>
    exact (keeps_edit (.modifyGet fun p hp => h.addGlobal p name elem hp)).bind (fun _ => .pure _) w hw
  case addFunc name ret =>
    exact (keeps_edit (.modifyGet fun p hp => h.addFunc p name ret hp)).discard.bind
      (fun _ => .pure _) w hw
  case addParam f name ty =>
    exact (keeps_edit (.modifyGet fun p hp => h.addParam p f name ty hp)).bind (fun _ => .pure _) w hw
  case addBlock f name =>
    exact (keeps_edit (.modifyGet fun p hp => h.addBlock p f name hp)).bind (fun _ => .pure _) w hw
  case addConst ty v =>
    exact (keeps_edit (.modifyGet fun p hp => h.addConst p _ hp)).bind (fun _ => .pure _) w hw
  case newInstr i vs =>
    exact (keeps_edit (h.keeps_newInstr hc rfl rfl)).bind (fun _ => .pure _) w hw
  case append b i =>
    exact (keeps_demanded (h.keeps_append b) i).bind (fun _ => .pure _) w hw
  case insertBefore b i pos =>
    exact (keeps_edit (h.keeps_insertBefore b i pos)).bind (fun _ => .pure _) w hw
  case moveTo b => exact hw
  case binary op name x y => exact keeps_emitting (h.keeps_emitBinary · op name hc) w hw
  case cmp name x y => exact keeps_emitting (h.keeps_emit_setElem · x hc rfl rfl) w hw
  case alloca name elem =>
    exact keeps_emitting (h.keeps_emit_newInstr · (fun _ => List.not_mem_nil) rfl rfl) w hw
  case load name elem ptr => exact keeps_emitting (h.keeps_emit_newInstr · hc rfl rfl) w hw
  case store v ptr => exact keeps_emitting (h.keeps_emit_setElem · v hc rfl rfl) w hw
  case call name ty callee args => exact keeps_emitting (h.keeps_emit_newInstr · hc rfl rfl) w hw
  case br target =>
    exact keeps_emitting (h.keeps_emit_newInstr · (fun _ => List.not_mem_nil) rfl rfl) w hw
  case condBr cond yes no => exact keeps_emitting (h.keeps_emit_newInstr · hc rfl rfl) w hw
  case ret v => exact keeps_emitting (h.keeps_emit_newInstr · (fun _ => by simp) rfl rfl) w hw
  case setOperand i index v =>
    exact (keeps_demanded (fun i => h.robust.keeps_setOperand i index v) i).bind (fun _ => .pure _) w hw
  case setOperands i vs =>
    refine Act.Keeps.bind (keeps_edit ?_) (fun _ => .pure _) w hw
    cases i with
    | none => exact fun _ hp => hp
    | some i =>
      intro p hp
      rw [Act.ensures_bind, Act.ensures_demand_some]
      exact h.ensures_setOperands hp hc fun hne => .inl (hgive i ⟨vs, rfl, hne⟩)
  case replaceAllUses old new =>
    have hnew : complete → new ≠ none := fun hcomplete hnone =>
      hc hcomplete (List.mem_singleton.mpr hnone.symm)
    exact (keeps_edit (h.robust.keeps_replaceAllUses old hnew)).bind (fun _ => .pure _) w hw
  case erase i => exact (keeps_demanded h.robust.keeps_erase i).bind (fun _ => .pure _) w hw
  case forceErase i => exact (keeps_demanded h.robust.keeps_forceErase i).bind (fun _ => .pure _) w hw
  case dce i => exact (keeps_demanded h.robust.keeps_dce i).bind (fun _ => .pure _) w hw
  case constFold i => exact (keeps_demanded h.robust.keeps_constFold i).bind (fun _ => .pure _) w hw
  case cse v => exact (keeps_edit (h.robust.keeps_cse v)).bind (fun _ => .pure _) w hw
  case walk => exact (keeps_runPass h.keeps_walk).bind (fun _ => .pure _) w hw
  case peephole f =>
    have hpass := Pass.keeps_peephole h.robust.keeps_dce h.robust.keeps_constFold
      (fun v => h.robust.keeps_cse (some v)) f
    exact (keeps_runPass hpass).bind (fun _ => .pure _) w hw
  case constProp f => exact (keeps_runPass (h.keeps_constProp f)).bind (fun _ => .pure _) w hw
  case sweep f => exact (keeps_runPass (h.keeps_sweep f)).bind (fun _ => .pure _) w hw
  case optimize o =>
    have hs : Session.Has I { program := w.program } := hw
    exact (Pass.keeps_optimizePass (o := o) (fun _ => h.keeps_walk) h.keeps_constProp
      h.keeps_sweep).state hs

theorem Workbench.runAll_append (w : Workbench) (cs ds : List Command) :
    w.runAll (cs ++ ds) = (w.runAll cs).runAll ds := by
  induction cs generalizing w with
  | nil => rfl
  | cons c cs ih => exact ih _

end Commands

end Midend
