import Midend.Proofs.Command.Invariants

/-!
# Use-lists stay exact

Whatever is done to a program, by hand or by the optimizer, its use-lists stay the exact inverse of
the operand relation, as long as nobody passes a missing operand or a missing replacement.  A call
that fails may have done a part of its work; what it leaves is exact as well.

The property that is kept says a little more.  No operand slot is empty, since the merging of
operands passes on what it finds in a slot, and an erased instruction has no operands unless it is
`spared`: an instruction can be given operands after its erasure, and then it keeps them.

## Main definitions

* `Program.Consistent`: exact use-lists, filled slots, bare erased instructions.

## Main results

* `Program.Consistent.stable`: the primitive operations keep a program consistent.
* `Command.keeps_consistent`: each command keeps a program consistent.
* `runAll_uses_exact`: the use-lists are exact after every run of complete commands, and an erased
  instruction that was not given operands again has none.
-/

namespace Midend

namespace Program

/-- Use-lists are exact, slots are filled, and erased instructions other than the spared ones have
no operands. -/
structure Consistent (spared : InstrId → Prop) (p : Program) : Prop where
  /-- The use-lists are exact. -/
  exact : p.UsesExact
  /-- Every slot holds a value. -/
  filled : ∀ i, none ∉ (p.instr i).operands
  /-- Erased instructions have no operands. -/
  bare : ∀ i, ¬ spared i → (p.instr i).isErased = true → (p.instr i).operands = []

variable {spared : InstrId → Prop} {p : Program}

theorem consistent_empty (name : String) : (Program.empty name).Consistent spared := by
  have hops : ∀ i, ((Program.empty name).instr i).operands = [] := by
    intro i
    simp [Program.empty, instr]
    rfl
  have huses : ∀ v, (Program.empty name).usesOf v = [] := by
    intro v
    cases v <;> simp [Program.empty, usesOf, UseLists.get] <;> rfl
  refine ⟨fun v slot => ?_, fun i => ?_, fun i _ _ => hops i⟩
  · rw [huses, readSlot, hops]
    simp
  · rw [hops]
    exact List.not_mem_nil

namespace Consistent

/-- A change that touches neither operands nor use-lists, and erases nothing. -/
theorem congr {q : Program} (h : p.Consistent spared)
    (hops : ∀ i, (q.instr i).operands = (p.instr i).operands)
    (huses : ∀ v, q.usesOf v = p.usesOf v)
    (herased : ∀ i, (q.instr i).isErased = true → (p.instr i).isErased = true) :
    q.Consistent spared where
  exact := h.exact.congr hops huses
  filled i := by rw [hops]; exact h.filled i
  bare i hi he := by rw [hops]; exact h.bare i hi (herased i he)

/-- A change that touches neither instructions nor use-lists. -/
theorem of_same {q : Program} (h : p.Consistent spared) (hinstr : ∀ i, q.instr i = p.instr i)
    (huses : ∀ v, q.usesOf v = p.usesOf v) : q.Consistent spared :=
  h.congr (fun i => by rw [hinstr]) huses (fun i => by rw [hinstr]; exact id)

theorem replaceOperand (h : p.Consistent spared) {slot : Use}
    (hslot : slot.index < (p.instr slot.user).operands.length) (v : Value) :
    (p.replaceOperand slot v).Consistent spared where
  exact := h.exact.replaceOperand hslot v
  filled i := by
    rw [instr_replaceOperand]
    split
    · intro hmem
      rcases List.mem_or_eq_of_mem_set hmem with hold | hnew
      · exact h.filled i hold
      · cases hnew
    · exact h.filled i
  bare i hi he := by
    rw [instr_replaceOperand] at he ⊢
    split at he
    · next huser =>
      rw [if_pos huser, h.bare i hi he]
      rfl
    · next huser =>
      rw [if_neg huser]
      exact h.bare i hi he

theorem redirect (h : p.Consistent spared) (old new : Value) :
    (p.redirect old new).Consistent spared where
  exact := h.exact.redirect old new
  filled i := by
    rw [h.exact.instr_redirect]
    intro hmem
    obtain ⟨v, hv, hsub⟩ := List.mem_map.mp hmem
    unfold substituteIn at hsub
    split at hsub
    · cases hsub
    · subst hsub
      exact h.filled i hv
  bare i hi he := by
    rw [h.exact.instr_redirect] at he ⊢
    have hnil := h.bare i hi he
    rw [Instr.substitute, hnil]
    rfl

theorem detach (h : p.Consistent spared) (i : InstrId) : (p.detach i).Consistent spared where
  exact := h.exact.detach i
  filled j := by
    rw [instr_detach]
    split
    · exact List.not_mem_nil
    · exact h.filled j
  bare j hj he := by
    rw [instr_detach] at he ⊢
    split at he
    · next hij => rw [if_pos hij]
    · next hij =>
      rw [if_neg hij]
      exact h.bare j hj he

/-- Operands may be given to an instruction that is spared or not erased. -/
theorem assign (h : p.Consistent spared) {i : InstrId} {vs : List (Option Value)}
    (hvs : none ∉ vs) (hi : vs ≠ [] → spared i ∨ (p.instr i).isErased = false) :
    ((p.dropOperands i).assignOperands i vs).Consistent spared where
  exact := by
    refine (h.exact.dropOperands i).assignOperands ?_ vs
    rw [instr_dropOperands, if_pos rfl]
  filled j := by
    rw [instr_assignOperands]
    split
    · exact hvs
    · next hij =>
      rw [instr_dropOperands, if_neg hij]
      exact h.filled j
  bare j hj he := by
    rw [instr_assignOperands, instr_dropOperands, instr_dropOperands, if_pos rfl] at he
    rw [instr_assignOperands, instr_dropOperands, instr_dropOperands, if_pos rfl]
    split at he
    · next hij =>
      -- An instruction that got operands is not erased, or it is not judged.
      subst hij
      rw [if_pos rfl]
      refine Classical.byContradiction fun hne => ?_
      rcases hi hne with hs | hlive
      · exact hj hs
      · rw [Instr.isErased] at hlive he
        rw [hlive] at he
        cases he
    · next hij =>
      rw [if_neg hij, if_neg hij]
      exact h.bare j hj he

theorem addInstr (h : p.Consistent spared) {x : Instr} (hops : x.operands = [])
    (hlive : x.isErased = false) : (p.addInstr x).2.Consistent spared := by
  have hfresh : (p.instr p.instrs.size).operands = [] := by
    simp [instr, Table.get, Table.size]
    rfl
  refine h.congr (fun j => ?_) (fun v => rfl) (fun j => ?_)
  · rw [instr_addInstr]
    split
    · next hj => rw [hj, hfresh, hops]
    · rfl
  · rw [instr_addInstr]
    split
    · rw [hlive]
      intro habs
      cases habs
    · exact id

theorem attach (h : p.Consistent spared) {b : BlockRef} {i : InstrId}
    {place : List InstrId → List InstrId} {q : Program} (hq : Relinked (p.attach b i place) q) :
    q.Consistent spared := by
  refine h.congr (fun j => ?_) hq.usesOf (fun j => ?_)
  · rw [hq.instr, instr_attach]
    split
    · next hij => rw [← hij]
    · rfl
  · rw [hq.instr, instr_attach]
    split
    · intro habs
      cases habs
    · exact id

end Consistent

end Program

/-! ### Commands -/

section Commands

variable {spared : InstrId → Prop}

/-- **All primitive operations keep a program consistent,** as long as nothing missing is passed on and
erased instructions get operands only if they are spared. -/
theorem Program.Consistent.stable :
    Program.Stable True spared (Consistent spared) where
  addGlobal _ _ _ h := h.of_same (fun _ => rfl) fun _ => rfl
  addFunc _ _ _ h := h.of_same (fun _ => rfl) fun _ => rfl
  addParam _ _ _ _ h := h.of_same (fun _ => rfl) fun _ => rfl
  addBlock _ _ _ h := h.of_same (fun _ => rfl) fun _ => rfl
  addConst _ _ h := h.of_same (fun _ => rfl) fun _ => rfl
  addInstr _ x hops hplace h := by
    refine h.addInstr hops ?_
    rw [Instr.isErased, hplace]
    rfl
  setElem p i ty h := by
    refine h.congr (fun j => ?_) (fun _ => rfl) fun j => ?_
    · obtain ⟨elem, heq⟩ := p.exists_instr_setElem i ty j
      rw [heq]
    · obtain ⟨elem, heq⟩ := p.exists_instr_setElem i ty j
      rw [heq]
      exact id
  assign _ _ _ hvs hi h := h.assign (hvs trivial) hi
  replaceOperand _ _ v hslot h := h.replaceOperand hslot v
  redirect _ old new h := h.redirect old new
  abandon hnot := absurd trivial hnot
  append _ b i _ _ h := h.attach (relinked_linkLast _ b i)
  insertBefore _ b i pos _ _ h := h.attach (relinked_linkBefore _ b i pos)
  detach _ i _ _ h := h.detach i
  filled _ _ h := h.filled

/-- The program on a workbench is consistent. -/
def Workbench.Consistent (spared : InstrId → Prop) (w : Workbench) : Prop :=
  w.program.Consistent spared

/-- **One command keeps a program consistent**, whether it fails or not, if what it gives operands
to is spared or not erased. -/
theorem Command.keeps_consistent {c : Command} (hc : c.IsComplete) {w : Workbench}
    (hw : w.Consistent spared)
    (hgive : ∀ i, c.GivesOperands i → spared i ∨ (w.program.instr i).isErased = false) :
    (c.run w).2.Consistent spared := by
  by_cases hset : ∃ i, c.GivesOperands i
  · obtain ⟨i, vs, rfl, hne⟩ := hset
    refine Act.Ensures.state ?_
    rw [Command.run, Act.ensures_bind, Workbench.ensures_edit, Act.ensures_bind,
      Act.ensures_demand_some]
    exact Program.Consistent.stable.ensures_setOperands hw (fun _ => hc) fun _ => hgive i ⟨vs, rfl, hne⟩
  · have hother : ∀ i, c.GivesOperands i → spared i := fun i hi => absurd ⟨i, hi⟩ hset
    exact (Program.Consistent.stable.keeps_run (fun _ => hc) hother).state hw

/-- A run of complete commands that give operands to spared instructions only. -/
theorem Workbench.Consistent.runAll {w : Workbench} (hw : w.Consistent spared)
    {cs : List Command} (hcs : ∀ c ∈ cs, c.IsComplete)
    (hgive : ∀ c ∈ cs, ∀ i, c.GivesOperands i → spared i) : (w.runAll cs).Consistent spared := by
  induction cs generalizing w with
  | nil => exact hw
  | cons c cs ih =>
    rw [List.forall_mem_cons] at hcs hgive
    exact ih (c.keeps_consistent hcs.1 hw fun i hi => .inl (hgive.1 i hi)) hcs.2 hgive.2

end Commands

/-- **Use-lists are the inverse of the operand relation at all times.**  Let any commands be carried
out on an empty program, failing ones included, of which none passes a missing operand or a missing
replacement.  Then a slot occurs once in the use-list of the value it holds and in no other
use-list.  And an erased instruction has no operands unless it was given some after its erasure: if
it was not erased yet before the command `c`, which may be the one that erased it, and no command
behind `c` gave it operands, then it has none. -/
theorem runAll_uses_exact (name : String) (cs : List Command) (hcs : ∀ c ∈ cs, c.IsComplete) :
    let start : Workbench := { program := .empty name }
    (∀ v slot, ((start.runAll cs).program.usesOf v).count slot =
      if (start.runAll cs).program.readSlot slot = some v then 1 else 0) ∧
    ∀ i before c after, cs = before ++ c :: after →
      ((start.runAll before).program.instr i).isErased = false →
      ((start.runAll cs).program.instr i).isErased = true →
      (∀ d ∈ after, ¬ d.GivesOperands i) →
      ((start.runAll cs).program.instr i).operands = [] := by
  intro start
  have hstart : ∀ spared, start.Consistent spared := fun _ => Program.consistent_empty name
  refine ⟨?_, ?_⟩
  · exact ((hstart fun _ => True).runAll hcs fun _ _ _ _ => trivial).exact
  · rintro i before c after rfl hlive herased hafter
    have hbefore : ∀ c ∈ before, c.IsComplete := fun c hc => hcs c (by simp [hc])
    -- Only `i` is judged.  It is not erased before `c`, so nothing is asked of it there.
    have hw : (start.runAll before).Consistent (· ≠ i) := by
      obtain ⟨hexact, hfilled, -⟩ :=
        (hstart fun _ => True).runAll hbefore fun _ _ _ _ => trivial
      refine ⟨hexact, hfilled, fun j hj he => ?_⟩
      rw [not_not.mp hj, hlive] at he
      cases he
    have hc : ((c.run (start.runAll before)).2).Consistent (· ≠ i) := by
      refine c.keeps_consistent (hcs c (by simp)) hw fun j _ => ?_
      by_cases hj : j = i
      · exact .inr (hj ▸ hlive)
      · exact .inl hj
    have hrun : start.runAll (before ++ c :: after) =
        ((c.run (start.runAll before)).2).runAll after := by
      rw [Workbench.runAll_append]
      rfl
    have hend : (start.runAll (before ++ c :: after)).Consistent (· ≠ i) := by
      rw [hrun]
      refine hc.runAll (fun d hd => hcs d (by simp [hd])) fun d hd j hj => ?_
      rintro rfl
      exact hafter d hd hj
    exact hend.bare i (by simp) herased

/-- Commands under which an instruction uses the same value twice, is to be erased while it is used,
loses its uses and is erased. -/
def twiceUsed : List Command :=
  [.addFunc "f" .void, .addBlock 0 "entry", .addConst .i64 2, .moveTo ⟨0, 0⟩,
    .binary .add "x" (some (.const 0)) (some (.const 0)),
    .binary .mul "y" (some (.instr 0)) (some (.instr 0)), .forceErase (some 0),
    .replaceAllUses (some (.instr 0)) (some (.const 0))]

theorem runAll_uses_exact_twiceUsed :
    let start : Workbench := { program := .empty "m" }
    let cs := twiceUsed ++ .erase (some 0) :: [.setOperand (some 1) 5 (some (.const 0))]
    (∀ c ∈ cs, c.IsComplete) ∧
    ((start.runAll cs).program.usesOf (.const 0)).count ⟨1, 1⟩ = 1 ∧
    ((start.runAll cs).program.instr 0).isErased = true ∧
    ((start.runAll cs).program.instr 0).operands = [] := by
  intro start cs
  have hcs : ∀ c ∈ cs, c.IsComplete := by decide
  obtain ⟨huses, hbare⟩ := runAll_uses_exact "m" cs hcs
  have herased : ((start.runAll cs).program.instr 0).isErased = true := by decide +kernel
  refine ⟨hcs, ?_, herased, ?_⟩
  · rw [huses, if_pos (by decide +kernel)]
  · refine hbare 0 twiceUsed _ _ rfl (by decide +kernel) herased ?_
    rintro d hd ⟨vs, rfl, -⟩
    simp at hd

end Midend
