import Midend.Proofs.Pass.WalkConvergence
import Midend.Proofs.Program.VerifierExact

/-!
# The counters account for what is gone

A run of the optimizer takes instructions out of their blocks at four places: where it erases a dead one,
where it folds one, where it sweeps, and where it merges operands.  The first three are counted one by one.
A merge is counted once, though it may take none, one or two along: the first of the operands, and the former
operand of the second.  So what is gone lies between what is counted as erased or folded and that with two
more for every merge.  Whatever is rewritten is counted too, so that a run that counts nothing leaves the
program as it was.

What carries the proof is that the size of a well-formed program is the number of instructions that are in
some block, each being in one block and there once.

## Main definitions

* `Stats.total`: all that is counted of changes.
* `Session.Accounts`: what the counters say of a part of a run.
* `Pass.Accounted`: passes whose counters account for what they do.

## Main results

* `Program.WellFormed.size_detach`: erasing takes one instruction away, if that is in a block.
* `Session.stepRelation_accounts`: a step of the walk.
* `accounted_sweep`, `accounted_constProp`: the other passes.
* `optimize_accounts`: a run on the program of an accepted text.
-/

namespace Midend

/-! ### The size of a program -/

namespace Program

variable {p q : Program}

/-- The number of instructions is told by the functions. -/
theorem instructions_congr (h : q.funcs = p.funcs) : q.size.instructions = p.size.instructions := by
  have hcount : q.instrCount = p.instrCount := by
    funext f
    rw [instrCount, instrCount, func_congr h]
  unfold size
  dsimp only
  rw [hcount, h]

/-- Every instruction is in one block, and there once. -/
theorem Coherent.nodup_allInstrs (h : p.Coherent) : p.allInstrs.Nodup := by
  refine nodup_flatMap_of_inj List.nodup_range (fun f _ => ?_) fun f f' i hi hi' => ?_
  · rw [funcInstrs_eq_flatMap]
    refine nodup_flatMap_of_inj (p.nodup_blockRefs f) (fun b _ => h.nodup b) fun b c i hb hc => ?_
    exact Place.inBlock.inj (((h.listed b i).mp hb).symm.trans ((h.listed c i).mp hc))
  · obtain ⟨b, hb, rfl⟩ := h.mem_funcInstrs.mp hi
    obtain ⟨c, hc, rfl⟩ := h.mem_funcInstrs.mp hi'
    rw [Place.inBlock.inj (hb.symm.trans hc)]

theorem Coherent.mem_allInstrs (h : p.Coherent) {i : InstrId} :
    i ∈ p.allInstrs ↔ (p.instr i).place.block?.isSome = true := by
  constructor
  · intro hi
    obtain ⟨f, -, hi⟩ := List.mem_flatMap.mp hi
    obtain ⟨b, hb, -⟩ := h.mem_funcInstrs.mp hi
    rw [hb]
    rfl
  · intro hi
    obtain ⟨b, hb⟩ := Option.isSome_iff_exists.mp hi
    cases hplace : (p.instr i).place with
    | inBlock c => exact h.listedIn_allInstrs i c hplace
    | _ =>
      rw [hplace] at hb
      cases hb

/-- **Erasing takes one instruction away,** if that is in a block. -/
theorem WellFormed.size_detach (h : p.WellFormed) {i : InstrId} (hi : p.usesOf (.instr i) = []) :
    (p.detach i).size.instructions + (if (p.instr i).place.block?.isSome then 1 else 0) =
      p.size.instructions := by
  have hp := h.nodup_allInstrs
  have hq := (h.detach hi).nodup_allInstrs
  have hperm : (p.detach i).allInstrs.Perm (p.allInstrs.erase i) := by
    refine (List.perm_ext_iff_of_nodup hq (hp.erase i)).mpr fun j => ?_
    rw [hp.mem_erase_iff, h.mem_allInstrs, (h.detach hi).mem_allInstrs, instr_detach]
    by_cases hj : i = j
    · rw [if_pos hj]
      exact iff_of_false (fun hplaced => by cases hplaced) fun hne => hne.1 hj.symm
    · rw [if_neg hj]
      exact (and_iff_right (Ne.symm hj)).symm
  rw [← h.length_allInstrs, ← (h.detach hi).length_allInstrs, hperm.length_eq, List.length_erase]
  by_cases hmem : i ∈ p.allInstrs
  · have := List.length_pos_of_mem hmem
    rw [if_pos hmem, if_pos (h.mem_allInstrs.mp hmem)]
    omega
  · rw [if_neg hmem, if_neg (mt h.mem_allInstrs.mpr hmem), Nat.add_zero]

theorem WellFormed.size_detach_of_inBlock (h : p.WellFormed) {i : InstrId} {b : BlockRef}
    (hi : p.usesOf (.instr i) = []) (hb : (p.instr i).place = .inBlock b) :
    (p.detach i).size.instructions + 1 = p.size.instructions := by
  have hsize := h.size_detach hi
  rw [hb] at hsize
  exact hsize

/-- An instruction goes when a constant takes its place. -/
theorem WellFormed.size_fold (h : p.WellFormed) {i : InstrId} {b : BlockRef} (c : Const)
    (hb : (p.instr i).place = .inBlock b) :
    (p.fold i c).size.instructions + 1 = p.size.instructions := by
  have hne : Value.instr i ≠ .const p.consts.size := fun heq => by cases heq
  have hwf := (h.withConsts (p.consts.push c)).redirect_const (.instr i) p.consts.size
  rw [fold, hwf.size_detach_of_inBlock (b := b) (usesOf_redirect_self _ hne)]
  · exact instructions_congr (funcs_redirect _ _ _)
  · rw [(sameButOperands_redirect _ _ _).place]
    exact hb

end Program

/-- With a merge one instruction goes at most, as long as the former operand is not looked at. -/
theorem SiblingMerge.Fits.size_outcome {m : SiblingMerge} (h : m.Fits) (hp : m.before.WellFormed) :
    m.outcome.size.instructions ≤ m.before.size.instructions ∧
      m.before.size.instructions ≤ m.outcome.size.instructions + 1 := by
  have hafter : m.after.size.instructions = m.before.size.instructions :=
    Program.instructions_congr (Program.sameButOperands_merge _ _ _).funcs
  unfold outcome
  split
  · next hfree =>
    have hsize := (Merge.wellFormed h.valid hp).size_detach hfree
    split at hsize <;> omega
  · omega

/-! ### Counters and sizes -/

/-- All changes that are counted. -/
def Stats.total (c : Stats) : Nat := c.changes + c.propagated

namespace Session

variable {s t u : Session}

/-- Between two states, what is counted as erased or folded is gone, and for every merge at most two
instructions more; and nothing happens that is not counted. -/
structure Accounts (s t : Session) : Prop where
  /-- What is counted as erased or folded is gone. -/
  atLeast : t.program.size.instructions + (t.stats.erased + t.stats.folded) ≤
    s.program.size.instructions + (s.stats.erased + s.stats.folded)
  /-- Not more than two others are gone for every merge. -/
  atMost : s.program.size.instructions + (s.stats.erased + s.stats.folded + 2 * s.stats.cse) ≤
    t.program.size.instructions + (t.stats.erased + t.stats.folded + 2 * t.stats.cse)
  /-- Counters only grow. -/
  grows : s.stats.total ≤ t.stats.total
  /-- What is not counted does not happen. -/
  idle : t.stats.total = s.stats.total → t.program = s.program

namespace Accounts

/-- Some instructions are gone, all of them counted one by one, and nothing happens that is not
counted. -/
theorem of_counted {n : Nat} (hsize : t.program.size.instructions + n = s.program.size.instructions)
    (hcounted : t.stats.erased + t.stats.folded = s.stats.erased + s.stats.folded + n)
    (hcse : t.stats.cse = s.stats.cse) (hpropagated : s.stats.propagated ≤ t.stats.propagated)
    (hidle : n = 0 → t.stats.propagated = s.stats.propagated → t.program = s.program) :
    s.Accounts t := by
  refine ⟨by omega, by omega, ?_, fun htotal => ?_⟩
  · unfold Stats.total Stats.changes
    omega
  · unfold Stats.total Stats.changes at htotal
    exact hidle (by omega) (by omega)

/-- Nothing happens to the program. -/
theorem unchanged (hprogram : t.program = s.program) (herased : t.stats.erased = s.stats.erased)
    (hfolded : t.stats.folded = s.stats.folded) (hcse : t.stats.cse = s.stats.cse)
    (hpropagated : t.stats.propagated = s.stats.propagated) : s.Accounts t := by
  refine .of_counted (n := 0) ?_ (by omega) hcse (Nat.le_of_eq hpropagated.symm) fun _ _ => hprogram
  rw [hprogram, Nat.add_zero]

theorem quiet (hprogram : t.program = s.program) (hstats : t.stats = s.stats) : s.Accounts t := by
  refine .unchanged hprogram ?_ ?_ ?_ ?_ <;> rw [hstats]

/-- One instruction is gone, and is counted. -/
theorem of_one (hsize : t.program.size.instructions + 1 = s.program.size.instructions)
    (hcounted : t.stats.erased + t.stats.folded = s.stats.erased + s.stats.folded + 1)
    (hcse : t.stats.cse = s.stats.cse) (hpropagated : t.stats.propagated = s.stats.propagated) :
    s.Accounts t :=
  .of_counted hsize hcounted hcse (Nat.le_of_eq hpropagated.symm) fun hnone => by cases hnone

/-- A merge takes up to two instructions along. -/
theorem of_merge (hatMost : s.program.size.instructions ≤ t.program.size.instructions + 2)
    (hatLeast : t.program.size.instructions ≤ s.program.size.instructions)
    (hstats : t.stats = { s.stats with cse := s.stats.cse + 1 }) : s.Accounts t := by
  have htotal : t.stats.total = s.stats.total + 1 := by
    rw [hstats]
    unfold Stats.total Stats.changes
    dsimp only
    omega
  refine ⟨?_, ?_, by omega, fun hsame => by omega⟩ <;> rw [hstats] <;> dsimp only <;> omega

theorem trans (h : s.Accounts t) (h' : t.Accounts u) : s.Accounts u where
  atLeast := Nat.le_trans h'.atLeast h.atLeast
  atMost := Nat.le_trans h.atMost h'.atMost
  grows := Nat.le_trans h.grows h'.grows
  idle htotal := by
    have hfirst := h.grows
    have hsecond := h'.grows
    rw [h'.idle (by omega), h.idle (by omega)]

end Accounts

/-- **A step of the walk accounts for what it does.** -/
theorem stepRelation_accounts : StepRelation fun _ s t => s.Accounts t where
  quiet := .quiet
  trans := .trans
  erase {s t i} hs hi hdead hprogram hstats := by
    obtain ⟨b, hb⟩ := hdead.exists_block hi
    have hsize := hs.size_detach_of_inBlock hdead.unused hb
    rw [← hprogram] at hsize
    refine .of_one hsize ?_ ?_ ?_ <;> rw [hstats]
    exact Nat.add_right_comm _ _ _
  fold {s t i c} hs hi hc hprogram hstats := by
    obtain ⟨hplace, -⟩ := foldedConst?_eq_some_iff.mp hc
    obtain ⟨b, hb⟩ := Instr.exists_block hplace hi
    have hsize := hs.size_fold c hb
    rw [← hprogram] at hsize
    refine .of_one hsize ?_ ?_ ?_ <;> rw [hstats]
    exact (Nat.add_assoc _ _ _).symm
  merge {s t m} hs hbefore hfits hprogram hstats := by
    rw [← hbefore] at hs
    obtain ⟨hle, hge⟩ := hfits.size_outcome hs
    rcases hprogram with hprogram | ⟨d, hdead, hprogram⟩
    · refine .of_merge ?_ ?_ hstats <;> rw [hprogram, ← hbefore]
      · omega
      · exact hle
    · have hsize := (hfits.rewrites.wellFormed hs).size_detach hdead.unused
      have hone : (m.outcome.detach d).size.instructions ≤ m.outcome.size.instructions ∧
          m.outcome.size.instructions ≤ (m.outcome.detach d).size.instructions + 1 := by
        split at hsize <;> omega
      refine .of_merge ?_ ?_ hstats <;> rw [hprogram, ← hbefore] <;> omega

end Session

/-! ### Passes -/

/-- From a well-formed program the pass ends without a fault and leaves a well-formed one, and the counters
account for what it does. -/
def Pass.Accounted {α : Type} (m : Pass α) : Prop :=
  ∀ s, s.program.WellFormed → m.Succeeds s fun _ t => t.program.WellFormed ∧ s.Accounts t

theorem composable_accounted : Pass.Composable fun _ {_} m => Pass.Accounted m where
  pure _ _ hs := ⟨hs, .quiet rfl rfl⟩
  bind hm hf s hs := by
    rw [Act.Succeeds, Act.ensures_bind]
    refine (hm s hs).mono fun a t ht => ?_
    exact (hf a t ht.1).mono fun _ _ hu => ⟨hu.1, ht.2.trans hu.2⟩
  mono hm _ := hm
  get _ hs := ⟨hs, .quiet rfl rfl⟩
  program _ hs := ⟨hs, .quiet rfl rfl⟩
  log _ _ hs := ⟨hs, .quiet rfl rfl⟩
  round _ hs := ⟨hs, .unchanged rfl rfl rfl rfl rfl⟩

theorem accounted_walk : Pass.Accounted walk := fun s hs =>
  (Session.stepRelation_accounts.walkRelation.walks_walk s hs).mono
    fun _ _ ht => ⟨ht.1.wellFormed hs, ht.2⟩

/-- What a sweep keeps: as many instructions are gone as it has erased. -/
theorem Program.sweepInvariant_gone (p : Program) : SweepInvariant fun q queue n =>
    ((q.WellFormed ∧ Rewrites [] p q) ∧ ∀ i ∈ queue, (q.instr i).place ≠ .detached) ∧
      q.size.instructions + n = p.size.instructions ∧ (n = 0 → q = p) where
  skip h hlive := ⟨(WellFormed.sweepable p).invariant.skip (n := 0) h.1 hlive, h.2⟩
  inBlock h hdead := (WellFormed.sweepable p).invariant.inBlock (n := 0) h.1 hdead
  erase {q i queue n} h hdead := by
    obtain ⟨b, hb⟩ := (WellFormed.sweepable p).invariant.inBlock (n := 0) h.1 hdead
    have hsize := h.1.1.1.size_detach_of_inBlock hdead.unused hb
    have hgone := h.2.1
    refine ⟨(WellFormed.sweepable p).invariant.erase (n := 0) h.1 hdead, by omega, fun hnone => ?_⟩
    cases hnone

/-- **A sweep counts what it erases.** -/
theorem accounted_sweep (f : FuncId) : Pass.Accounted (sweep f) := by
  intro s hs
  unfold sweep
  rw [Act.Succeeds, Act.ensures_bind, Pass.ensures_program, Act.ensures_bind]
  refine ((Program.sweepInvariant_gone s.program).succeeds _ _ 0 s
    ⟨⟨⟨hs, .refl _⟩, fun i hi => ?_⟩, Nat.add_zero _, fun _ => rfl⟩ (Nat.le_refl _)).mono
    fun n t ht => ?_
  · obtain ⟨b, hb, -⟩ := hs.mem_funcInstrs.mp hi
    rw [hb]
    exact fun heq => by cases heq
  · obtain ⟨⟨⟨⟨hwf, -⟩, -⟩, hgone, hidle⟩, hstats⟩ := ht
    rw [Nat.zero_add] at hgone hidle
    refine ⟨hwf, .of_counted hgone ?_ ?_ ?_ fun hnone _ => hidle hnone⟩ <;> dsimp only <;> rw [hstats]
    exact Nat.add_right_comm _ _ _

/-- **Propagation counts what it replaces,** and takes nothing away. -/
theorem accounted_constProp (f : FuncId) : Pass.Accounted (constProp f) := by
  intro s hs
  unfold constProp
  rw [Act.Succeeds, Act.ensures_bind, Act.ensures_get, Act.ensures_bind, Pass.ensures_program,
    Act.ensures_bind]
  refine (succeeds_solveReachingStores f s hs).mono fun sol t ht => ?_
  rw [Act.ensures_bind]
  refine (succeeds_logUnreachable f _ t).mono fun _ u hu => ?_
  obtain ⟨hprogram, hstats⟩ := hu
  obtain ⟨n, hcounted, hidle⟩ := ht.counted
  have hsize := Program.instructions_congr ht.same.funcs
  have hreplaced : s.Accounts t := by
    refine .of_counted (n := 0) hsize ?_ ?_ ?_ fun _ hsame => hidle ?_
    · rw [hcounted, Nat.add_zero]
    · rw [hcounted]
    · rw [hcounted]
      exact Nat.le_add_right _ _
    · rw [hcounted] at hsame
      exact Nat.add_eq_left.mp hsame
  refine ⟨hprogram ▸ ht.leads.wellFormed hs, hreplaced.trans (.trans (.quiet hprogram hstats) ?_)⟩
  exact .unchanged rfl rfl rfl rfl rfl

/-! ### Programs of accepted texts -/

/-- **The counters account for every instruction that is gone.**  A run on the program of an accepted text
ends without a fault, whatever the options.  Over all functions, as many instructions are gone as are
counted as erased or folded, and up to two more for every merge; so without a merge it is just these.  If
nothing is counted as erased, folded, merged or propagated, the program is as it was. -/
theorem optimize_accounts {name : String} {src : ByteArray} {p : Program}
    (h : Program.parse name src = .ok p) (o : Options) :
    ∃ r s removed, optimize o p = (.ok r, s) ∧
      p.size.instructions = s.program.size.instructions + removed ∧
      s.stats.erased + s.stats.folded ≤ removed ∧
      removed ≤ s.stats.erased + s.stats.folded + 2 * s.stats.cse ∧
      (s.stats.cse = 0 → removed = s.stats.erased + s.stats.folded) ∧
      (s.stats.erased = 0 → s.stats.folded = 0 → s.stats.cse = 0 → s.stats.propagated = 0 →
        s.program = p) := by
  have hwf := (Program.wellFormed_of_parse h).1
  have hoptimize : Pass.Accounted (optimizePass o) :=
    composable_accounted.optimizing accounted_constProp accounted_sweep fun _ => accounted_walk
  obtain ⟨r, s, hrun, -, hs⟩ := (hoptimize { program := p } hwf).exists_eq
  -- All counters are zero to begin with.
  have hatLeast : s.program.size.instructions + (s.stats.erased + s.stats.folded) ≤
      p.size.instructions := hs.atLeast
  have hatMost : p.size.instructions ≤ s.program.size.instructions +
      (s.stats.erased + s.stats.folded + 2 * s.stats.cse) := hs.atMost
  refine ⟨r, s, p.size.instructions - s.program.size.instructions, hrun, by omega, by omega, by omega,
    by omega, fun herased hfolded hcse hpropagated => hs.idle ?_⟩
  rw [Stats.total, Stats.changes, herased, hfolded, hcse, hpropagated]
  rfl

/-- A text in which all counters of the walk move.  The operands of `%u` are merged, which takes `%t` along
and leaves `%y` to be erased; `%c` is folded and `%z` is erased. -/
def mixed : ByteArray :=
  ("func @f(%a: i32) : i32 \x7b\nentry:\n    %s = sub i32 %a, 9\n    %t = add i32 %a, 1\n" ++
    "    %x = mul i32 %s, 2\n    %y = mul i32 %t, 3\n    %u = sub i32 %x, %y\n" ++
    "    %c = add i32 4, 5\n    %d = add i32 %c, %a\n    %k = add i32 %u, %d\n" ++
    "    %z = add i32 %a, 7\n    ret i32 %k\n\x7d\n").toUTF8

/-- Four instructions go there, one of them with the merge; with the walk switched off nothing is counted and
the program stays as it is. -/
theorem optimize_accounts_mixed : ∃ p, Program.parse "m" mixed = .ok p ∧ p.size.instructions = 10 ∧
    (∃ r s removed, optimize { constProp := false } p = (.ok r, s) ∧
      s.stats = { rounds := 3, erased := 2, folded := 1, cse := 1 } ∧
      p.size.instructions = s.program.size.instructions + removed ∧
      3 ≤ removed ∧ removed ≤ 5 ∧ removed = 4) ∧
    ∃ r s, optimize { peephole := false, constProp := false } p = (.ok r, s) ∧ s.stats = {} ∧
      s.program = p := by
  obtain ⟨p, hp, hfacts⟩ : ∃ p, Program.parse "m" mixed = .ok p ∧
      (p.size.instructions == 10 &&
        (optimize { constProp := false } p).2.stats ==
          { rounds := 3, erased := 2, folded := 1, cse := 1 } &&
        (optimize { constProp := false } p).2.program.size.instructions == 6 &&
        (optimize { peephole := false, constProp := false } p).2.stats == {}) = true :=
    Program.exists_of_parse (by decide +kernel)
  simp only [Bool.and_eq_true, beq_iff_eq] at hfacts
  obtain ⟨⟨⟨hbefore, hstats⟩, hafter⟩, hidle⟩ := hfacts
  refine ⟨p, hp, hbefore, ?_, ?_⟩
  · obtain ⟨r, s, removed, hrun, hsize, hatLeast, hatMost, -⟩ :=
      optimize_accounts hp { constProp := false }
    rw [hrun] at hstats hafter
    dsimp only at hstats hafter
    rw [hstats] at hatLeast hatMost
    exact ⟨r, s, removed, hrun, hstats, hsize, hatLeast, hatMost, by omega⟩
  · obtain ⟨r, s, removed, hrun, -, -, -, -, hsame⟩ :=
      optimize_accounts hp { peephole := false, constProp := false }
    rw [hrun] at hidle
    dsimp only at hidle
    rw [hidle] at hsame
    exact ⟨r, s, hrun, hidle, hsame rfl rfl rfl rfl⟩

end Midend
