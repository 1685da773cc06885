import Midend.Proofs.Action.Laws
import Midend.Proofs.Program.UseLists

/-!
# What the simplifications do

The erasing of a dead instruction and the folding of a constant one, each as a function on programs
together with the condition under which it happens.  Neither of them can fail, whatever the program
looks like: an erased instruction was found unused, and a folded one has just lost all its uses.

## Main definitions

* `Program.IsDead`: the condition for erasing.
* `Program.fold`: the folding of an instruction into a constant.

## Main results

* `Program.dce_run`, `Program.constFold_run`: what is left, and what is reported.
* `foldedConst?_eq_some_iff`: the condition for folding.
* `siblings?_eq_some`: what is known of operands that are merged.
-/

namespace Midend

/-! ### Erasing -/

theorem Instr.isPure_iff {x : Instr} :
    x.isPure = true ↔ x.op.hasSideEffects = false ∧ x.ty.isVoid = false := by
  rw [isPure, Bool.and_eq_true, Bool.not_eq_true', Bool.not_eq_true']

namespace Program

variable {p : Program} {i : InstrId}

/-- The instruction is in place, does nothing but compute a value, and nobody uses it. -/
structure IsDead (p : Program) (i : InstrId) : Prop where
  /-- It has not been erased. -/
  inPlace : (p.instr i).isErased = false
  /-- It computes a value and does nothing else. -/
  isPure : (p.instr i).isPure = true
  /-- Nobody uses the value. -/
  unused : p.usesOf (.instr i) = []

instance (p : Program) (i : InstrId) : Decidable (p.IsDead i) :=
  decidable_of_iff ((p.instr i).isErased = false ∧ (p.instr i).isPure = true ∧
      p.usesOf (.instr i) = [])
    ⟨fun h => ⟨h.1, h.2.1, h.2.2⟩, fun h => ⟨h.inPlace, h.isPure, h.unused⟩⟩

theorem forceErase_run (hplace : (p.instr i).isErased = false) (huses : p.usesOf (.instr i) = []) :
    forceErase i p = (.ok (), p.detach i) := by
  have herase : erase i p = (.ok .erased, p.detach i) := by
    rw [erase_run, if_neg (by simp [hplace]), if_neg (by simp [huses])]
  have hrun : (forceErase i).Succeeds p fun _ q => q = p.detach i := by
    unfold forceErase
    rw [Act.Succeeds, Act.ensures_bind, Act.ensures_of_run herase]
    exact rfl
  obtain ⟨_, _, heq, rfl⟩ := hrun.exists_eq
  exact heq

/-- **A dead instruction is erased, any other one is left alone.** -/
theorem dce_run (i : InstrId) (p : Program) :
    dce i p = if p.IsDead i then (.ok true, p.detach i) else (.ok false, p) := by
  have hdecides : ((p.instr i).isErased || !(p.instr i).isPure || p.usesOf (.instr i) ≠ []) = true ↔
      ¬ p.IsDead i := by
    constructor
    · intro hkept hdead
      simp [hdead.inPlace, hdead.isPure, hdead.unused] at hkept
    · intro hlive
      apply Classical.byContradiction
      intro hnot
      simp only [Bool.or_eq_true, not_or, Bool.not_eq_true, Bool.not_eq_false', decide_eq_true_eq,
        Classical.not_not] at hnot
      exact hlive ⟨hnot.1.1, hnot.1.2, hnot.2⟩
  by_cases hdead : p.IsDead i
  · have hrun : (dce i).Succeeds p fun dead q => dead = true ∧ q = p.detach i := by
      dsimp only [dce]
      rw [Act.Succeeds, Act.ensures_bind, Act.ensures_get, if_neg (mt hdecides.mp (not_not_intro hdead)),
        Act.ensures_bind, Act.ensures_of_run (forceErase_run hdead.inPlace hdead.unused)]
      exact ⟨rfl, rfl⟩
    obtain ⟨_, _, heq, rfl, rfl⟩ := hrun.exists_eq
    rw [if_pos hdead]
    exact heq
  · have hrun : (dce i).Succeeds p fun dead q => dead = false ∧ q = p := by
      dsimp only [dce]
      rw [Act.Succeeds, Act.ensures_bind, Act.ensures_get, if_pos (hdecides.mpr hdead)]
      exact ⟨rfl, rfl⟩
    obtain ⟨_, _, heq, rfl, rfl⟩ := hrun.exists_eq
    rw [if_neg hdead]
    exact heq

/-! ### Folding -/

/-- Makes a constant, puts it for an instruction and erases the instruction. -/
def fold (p : Program) (i : InstrId) (c : Const) : Program :=
  ({ p with consts := p.consts.push c }.redirect (.instr i) (.const p.consts.size)).detach i

end Program

variable {p : Program} {i : InstrId}

/-- **What is folded is arithmetic on two constants,** and yields a value. -/
theorem foldedConst?_eq_some_iff {c : Const} :
    foldedConst? p i = some c ↔ (p.instr i).isErased = false ∧ (p.instr i).ty.isVoid = false ∧
      ∃ a b, (p.instr i).operands = [some (.const a), some (.const b)] ∧
        foldConst (p.instr i).op (p.consts.get a) (p.consts.get b) = some c := by
  dsimp only [foldedConst?]
  constructor
  · intro h
    split at h
    · cases h
    · next hplace =>
      simp only [Bool.or_eq_true, not_or, Bool.not_eq_true] at hplace
      split at h
      · next a b hops => exact ⟨hplace.1, hplace.2, a, b, operands_of_twoOperands hops, h⟩
      · cases h
  · rintro ⟨hplace, hvoid, a, b, hops, hc⟩
    have htwo : twoOperands? (p.instr i) = some (some (.const a), some (.const b)) := by
      rw [twoOperands?, hops]
    rw [if_neg (by simp [hplace, hvoid]), htwo]
    exact hc

theorem isPure_of_foldedConst {c : Const} (h : foldedConst? p i = some c) :
    (p.instr i).isPure = true := by
  obtain ⟨-, hvoid, a, b, -, hc⟩ := foldedConst?_eq_some_iff.mp h
  rw [Instr.isPure_iff]
  refine ⟨?_, hvoid⟩
  unfold foldConst at hc
  split at hc
  · next hop => rw [hop]; rfl
  · next hop => rw [hop]; rfl
  · next hop => rw [hop]; rfl
  · cases hc

namespace Program

theorem constFold_run_none (h : foldedConst? p i = none) : constFold i p = (.ok (.instr i), p) := by
  have hrun : (constFold i).Succeeds p fun v q => v = .instr i ∧ q = p := by
    unfold constFold
    rw [Act.Succeeds, Act.ensures_bind, Act.ensures_get, h]
    exact ⟨rfl, rfl⟩
  obtain ⟨_, _, heq, rfl, rfl⟩ := hrun.exists_eq
  exact heq

/-- An instruction is dead once a constant has taken its place. -/
theorem isDead_of_foldedConst {c : Const} (h : foldedConst? p i = some c) :
    ({ p with consts := p.consts.push c }.redirect (.instr i) (.const p.consts.size)).IsDead i := by
  have hne : Value.instr i ≠ .const p.consts.size := fun heq => by cases heq
  have hpure : (p.instr i).isPure = true := isPure_of_foldedConst h
  obtain ⟨ops, heq, -⟩ :=
    exists_instr_redirect { p with consts := p.consts.push c } (.instr i) (.const p.consts.size) i
  refine ⟨?_, ?_, usesOf_redirect_self _ hne⟩
  · rw [heq]
    exact (foldedConst?_eq_some_iff.mp h).1
  · rw [heq]
    exact hpure

/-- **A constant takes the place of an instruction that computes it.** -/
theorem constFold_run {c : Const} (h : foldedConst? p i = some c) :
    constFold i p = (.ok (.const p.consts.size), p.fold i c) := by
  have hdead := isDead_of_foldedConst h
  have hrun : (constFold i).Succeeds p fun v q => v = .const p.consts.size ∧ q = p.fold i c := by
    unfold constFold
    rw [Act.Succeeds, Act.ensures_bind, Act.ensures_get, h]
    simp only [Act.ensures_bind, Act.ensures_modifyGet]
    rw [Act.ensures_of_run (replaceAllUses_run _ _ _),
      Act.ensures_of_run (forceErase_run hdead.inPlace hdead.unused)]
    exact ⟨rfl, rfl⟩
  obtain ⟨_, _, heq, rfl, rfl⟩ := hrun.exists_eq
  exact heq

end Program

/-! ### Merging -/

/-- Operands that are merged: both have operands themselves, and the first operand of the first is not
the second. -/
theorem siblings?_eq_some {a b : InstrId} (h : siblings? p i = some (a, b)) :
    (p.instr i).operands = [some (.instr a), some (.instr b)] ∧ (p.instr b).operands ≠ [] ∧
      (p.instr a).operands ≠ [] ∧ (p.instr a).operands.head? ≠ some (some (.instr b)) := by
  obtain ⟨hops, ha, hb⟩ := operands_of_siblings h
  refine ⟨hops, hb, ha, fun hhead => ?_⟩
  dsimp only [siblings?] at h
  have htwo : twoOperands? (p.instr i) = some (some (.instr a), some (.instr b)) := by
    rw [twoOperands?, hops]
  rw [htwo] at h
  simp [hhead] at h

/-- Operands that are merged are of the same operation and type. -/
theorem alike_of_siblings {a b : InstrId} (h : siblings? p i = some (a, b)) :
    (p.instr a).op = (p.instr b).op ∧ (p.instr a).ty = (p.instr b).ty := by
  obtain ⟨hops, -⟩ := operands_of_siblings h
  have htwo : twoOperands? (p.instr i) = some (some (.instr a), some (.instr b)) := by
    rw [twoOperands?, hops]
  dsimp only [siblings?] at h
  rw [htwo] at h
  apply Classical.byContradiction
  intro hdiffer
  rw [Decidable.not_and_iff_not_or_not] at hdiffer
  simp [hdiffer] at h

end Midend
