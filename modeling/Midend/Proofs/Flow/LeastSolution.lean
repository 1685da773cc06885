import Mathlib.Data.Fintype.Order
import Mathlib.Order.CompletePartialOrder
import Mathlib.Order.KrullDimension
import Midend.Flow.Schedule
import Midend.Proofs.Flow.ReachingStores

/-!
# The least solution of a data-flow problem

The equations of a problem say that what enters a block is the join of what leaves its predecessors,
and that what leaves the block follows from what enters it.  For a problem over a join-semilattice in
which blocks always add and remove the same, the solver ends without a fault, and what it has noted by
then is the least solution of the equations.

A problem has to say how much room its sets have left to grow.  Where every ascending chain has at most
a given length this can always be said, so all lattices of finite height are covered; masks of 32 bits
are one of them.

## Main definitions

* `Solves`: sets that satisfy the equations.
* `Solution.IsLeast`: what is noted for the blocks is the least solution.
* `Schedule.Constant`: the blocks add the same at every visit and let pass what they do not remove.

## Main results

* `exists_steady`: every lattice of finite height has problems of this kind.
* `Schedule.Constant.steady`: the problem of a constant schedule is of this kind.
* `solve_least_solution`: what the solver finds.
-/

namespace Midend

namespace Flow

variable {σ S : Type} [SemilatticeSup S] [OrderBot S]

/-! ### The equations -/

/-- The sets of what enters and what leaves each block satisfy the equations of a problem. -/
structure Solves (prob : Problem σ S) (p : Program) (f : FuncId) (gen kill : BlockRef → S)
    (ins outs : BlockRef → S) : Prop where
  /-- What enters a block is the join of what leaves its predecessors. -/
  enter : ∀ b ∈ p.blockRefs f, IsLUB (outs '' {c | c ∈ p.predecessors b}) (ins b)
  /-- What leaves a block follows from what enters it. -/
  leave : ∀ b ∈ p.blockRefs f, outs b = prob.transfer (ins b) (gen b) (kill b)

/-- What is noted for the blocks of a function is the least solution of the equations. -/
structure Solution.IsLeast (prob : Problem σ S) (p : Program) (f : FuncId)
    (gen kill : BlockRef → S) (sol : Solution S) : Prop where
  /-- Something is noted for every block, and what it adds and removes is noted as it is. -/
  noted : ∀ b ∈ p.blockRefs f,
    sol.ins.get? b = some (sol.ins.val b) ∧ sol.gens.get? b = some (gen b) ∧
    sol.kills.get? b = some (kill b) ∧ sol.outs.get? b = some (sol.outs.val b)
  /-- The equations hold for all blocks at once. -/
  solves : Solves prob p f gen kill sol.ins.val sol.outs.val
  /-- They hold for no smaller sets. -/
  least : ∀ ins outs, Solves prob p f gen kill ins outs → ∀ b ∈ p.blockRefs f,
    sol.ins.val b ≤ ins b ∧ sol.outs.val b ≤ outs b

section Equations

variable {prob : Problem σ S} {p : Program} {f : FuncId} {I : σ → Prop} {gen kill : BlockRef → S}

omit [OrderBot S] in
/-- Sets that satisfy the equations include all that the equations demand. -/
theorem Solves.closed {ins outs : BlockRef → S} (h : Solves prob p f gen kill ins outs) :
    Closed prob p f gen kill ins outs := by
  refine ⟨fun b hb c hc hcb => ?_, fun b hb => ?_⟩
  · have hpred : c ∈ p.predecessors b := (Program.mem_predecessors hb).mpr ⟨hc, hcb⟩
    exact (h.enter b hb).1 ⟨c, hpred, rfl⟩
  · exact (h.leave b hb).ge

/-- What enters a block, as the solver computes it, is the join of what leaves its predecessors. -/
theorem Problem.Steady.isLUB_entering (h : prob.Steady p f I gen kill) (hjumps : p.JumpsWithin f)
    (outs : BlockMap S) {b : BlockRef} (hb : b ∈ p.blockRefs f) :
    IsLUB (outs.val '' {c | c ∈ p.predecessors b}) (entering prob (.taken p f) outs b) := by
  constructor
  · rintro _ ⟨c, hc, rfl⟩
    obtain ⟨hc, hcb⟩ := (Program.mem_predecessors hb).mp hc
    exact h.val_le_entering hjumps outs hb hc hcb
  · intro x hx
    rw [h.entering_le_iff hjumps outs hb]
    intro c hc hcb
    have hpred : c ∈ p.predecessors b := (Program.mem_predecessors hb).mpr ⟨hc, hcb⟩
    exact hx ⟨c, hpred, rfl⟩

/-- Once every block is settled, the equations hold; and since what leaves the blocks is included in
all sets that are closed under them, the solution is the least one. -/
theorem Problem.Steady.isLeast (h : prob.Steady p f I gen kill) (hjumps : p.JumpsWithin f)
    {sol : Solution S} (hsettled : ∀ b ∈ p.blockRefs f, sol.Settled prob p f gen kill b)
    (hleast : ∀ ins outs, Closed prob p f gen kill ins outs → ∀ b ∈ p.blockRefs f,
      sol.outs.val b ≤ outs b) : sol.IsLeast prob p f gen kill := by
  have hin : ∀ b ∈ p.blockRefs f,
      sol.ins.val b = entering prob (.taken p f) sol.outs b := by
    intro b hb
    exact BlockMap.val_of_get? (hsettled b hb).ins
  have hout : ∀ b ∈ p.blockRefs f,
      sol.outs.val b = prob.transfer (sol.ins.val b) (gen b) (kill b) := by
    intro b hb
    rw [BlockMap.val_of_get? (hsettled b hb).outs, leavingNext, hin b hb]
  refine ⟨fun b hb => ?_, ⟨fun b hb => ?_, hout⟩, fun ins outs hsolves b hb => ?_⟩
  · have hb' := hsettled b hb
    rw [BlockMap.val_of_get? hb'.ins, BlockMap.val_of_get? hb'.outs]
    exact ⟨hb'.ins, hb'.gens, hb'.kills, hb'.outs⟩
  · rw [hin b hb]
    exact h.isLUB_entering hjumps sol.outs hb
  · have hclosed := hsolves.closed
    refine ⟨?_, hleast ins outs hclosed b hb⟩
    -- What enters has left a predecessor, and there the bound is known.
    rw [hin b hb, h.entering_le_iff hjumps sol.outs hb]
    intro c hc hcb
    have hc' := hleast ins outs hclosed c hc
    exact hc'.trans (hclosed.enter b hb c hc hcb)

end Equations

/-! ### Lattices of finite height -/

/-- Where ascending chains are bounded, the longest chain that starts from a set tells how often the
set can still grow. -/
theorem exists_room {S : Type} [PartialOrder S] {n : Nat} (hn : ∀ c : LTSeries S, c.length ≤ n) :
    ∃ room : S → Nat, ∀ new old : S, new ≠ old → old ≤ new → room new < room old := by
  have hfinite : ∀ s : S, Order.coheight s < ⊤ := by
    intro s
    have hle : Order.coheight s ≤ n := Order.coheight_le fun c _ => Nat.cast_le.mpr (hn c)
    exact hle.trans_lt (ENat.natCast_lt_top n)
  refine ⟨fun s => (Order.coheight s).toNat, fun new old hne hle => ?_⟩
  have hlt : old < new := lt_of_le_of_ne hle (Ne.symm hne)
  have hstrict : Order.coheight new < Order.coheight old :=
    Order.coheight_strictAnti hlt (hfinite new)
  rw [← ENat.natCast_toNat (hfinite new).ne, ← ENat.natCast_toNat (hfinite old).ne] at hstrict
  exact Nat.cast_lt.mp hstrict

open Classical in
/-- **Over a lattice of finite height there is a problem for whatever the blocks add and remove,** and
for every way of letting sets through that is monotone. -/
theorem exists_steady {n : Nat} (hn : ∀ c : LTSeries S, c.length ≤ n) (p : Program) (f : FuncId)
    (gen kill : BlockRef → S) (transfer : S → S → S → S)
    (hmono : ∀ g k, Monotone fun s => transfer s g k) :
    ∃ prob : Problem σ S, prob.transfer = transfer ∧
      prob.Steady p f (fun _ => True) gen kill := by
  obtain ⟨room, hroom⟩ := exists_room hn
  let prob : Problem σ S := {
    program := fun _ => p
    init := ⊥
    gen := fun b => pure (gen b)
    kill := fun b _ => pure (kill b)
    transfer := transfer
    merge := fun s t => s ⊔ t
    equal := fun s t => decide (s = t)
    includes := fun s t => decide (t ≤ s)
    room := room
    room_lt := fun new old hne hle =>
      hroom new old (of_decide_eq_false hne) (of_decide_eq_true hle) }
  have hsteady : prob.Steady p f (fun _ => True) gen kill := {
    init := rfl
    merge := fun _ _ => rfl
    equal := fun _ _ => decide_eq_true_iff
    includes := fun _ _ => decide_eq_true_iff
    monotone := fun b _ _ _ hst => hmono (gen b) (kill b) hst
    adds := fun _ _ _ _ => ⟨rfl, trivial⟩
    removes := fun _ _ _ _ => ⟨rfl, trivial⟩
    jumps := fun _ _ _ _ => rfl }
  exact ⟨prob, rfl, hsteady⟩

/-! ### Masks -/

namespace Schedule

/-- A block adds the same at every visit, and lets pass what it does not remove. -/
structure Constant (s : Schedule) : Prop where
  /-- There is one mask for each label. -/
  single : ∀ e ∈ s.gens, e.2.length ≤ 1
  /-- What enters a block counts. -/
  reads : s.ignoreIn = false

/-- What a block adds at its first visit. -/
def added (s : Schedule) (p : Program) (b : BlockRef) : Mask := s.genAt (p.block b).name 0

/-- What a block removes. -/
def removed (s : Schedule) (p : Program) (b : BlockRef) : Mask :=
  (s.kills.lookup (p.block b).name).getD .empty

variable {s : Schedule}

theorem Constant.genAt_eq (h : s.Constant) (label : String) (visit : Nat) :
    s.genAt label visit = s.genAt label 0 := by
  have hlength : ((s.gens.lookup label).getD []).length ≤ 1 := by
    cases hlookup : s.gens.lookup label with
    | none => exact Nat.zero_le 1
    | some masks =>
      obtain ⟨l₁, l₂, hgens, -⟩ := List.lookup_eq_some_iff.mp hlookup
      have hmem : (label, masks) ∈ s.gens := by
        rw [hgens]
        simp
      exact h.single _ hmem
  unfold genAt
  -- The last mask is the first one, if there is one at all.
  have hlast : ((s.gens.lookup label).getD []).length - 1 = 0 := by omega
  simp only [hlast, Nat.min_zero]

/-- The problem of a constant schedule is steady, however often the blocks were visited. -/
theorem Constant.steady (h : s.Constant) (p : Program) (f : FuncId) :
    (s.problem p).Steady p f (fun _ => True) (s.added p) (s.removed p) where
  init := rfl
  merge _ _ := rfl
  equal _ _ := decide_eq_true_iff
  includes _ _ := BitSet.subset_iff
  monotone b _ inn inn' hle i hi := by
    have hle' := hle i
    change (s.transfer _ _ _).has i = true at hi ⊢
    unfold transfer at hi ⊢
    rw [h.reads] at hi ⊢
    simp only [Bool.false_eq_true, if_false, BitSet.has_union, BitSet.has_diff] at hi ⊢
    grind
  adds b _ v _ := by
    change s.genAt (p.block b).name _ = s.added p b ∧ True
    exact ⟨h.genAt_eq _ _, trivial⟩
  removes _ _ _ _ := ⟨rfl, trivial⟩
  jumps _ _ _ _ := rfl

end Schedule

end Flow

/-! ### The solver -/

open Flow in
/-- **The solver finds the least solution of the equations,** for every function whose jumps stay within
it and every problem over a join-semilattice in which blocks always add and remove the same and sets
are let through monotonically: it ends without a fault, and no smaller sets satisfy the equations than
those it has noted.  There is such a problem over every lattice of finite height, for whatever the
blocks add and remove; masks of 32 bits with one mask for each label are a case of it. -/
theorem solve_least_solution {σ S : Type} [SemilatticeSup S] [OrderBot S] {p : Program} {f : FuncId}
    (hjumps : p.JumpsWithin f) :
    (∀ (prob : Problem σ S) (I : σ → Prop) (gen kill : BlockRef → S)
        (onChange : BlockRef → S → Act σ Unit) (s : σ), prob.Steady p f I gen kill →
      (∀ b out t, I t → (onChange b out).Succeeds t fun _ u => I u) → I s →
      ∃ sol t, solve prob p f onChange s = (.ok sol, t) ∧ sol.IsLeast prob p f gen kill) ∧
    (∀ (n : Nat) (gen kill : BlockRef → S) (transfer : S → S → S → S),
      (∀ c : LTSeries S, c.length ≤ n) → (∀ g k, Monotone fun s => transfer s g k) →
      ∃ prob : Problem σ S, prob.transfer = transfer ∧
        prob.Steady p f (fun _ => True) gen kill) ∧
    ∀ (m : Schedule) (v : Visits), m.Constant →
      ∃ sol t, m.solve p f v = (.ok sol, t) ∧
        sol.IsLeast (m.problem p) p f (m.added p) (m.removed p) := by
  refine ⟨fun prob I gen kill onChange s h hquiet hs => ?_, fun n gen kill transfer hn hmono => ?_,
    fun m v hm => ?_⟩
  · obtain ⟨sol, t, hrun, -, hsettled, hleast⟩ := (succeeds_solve h hjumps hquiet hs).exists_eq
    exact ⟨sol, t, hrun, h.isLeast hjumps hsettled hleast⟩
  · exact exists_steady hn p f gen kill transfer hmono
  · have h := hm.steady p f
    -- Noting down a change has no effect on what the blocks add.
    have hquiet : ∀ (b : BlockRef) (out : Mask) (t : Visits), True →
        (modify fun u => { u with changes := u.changes ++ [((p.block b).name, out)] } :
          Act Visits Unit).Succeeds t fun _ _ => True := by
      intro b out t _
      trivial
    obtain ⟨sol, t, hrun, -, hsettled, hleast⟩ :=
      (succeeds_solve h hjumps hquiet (s := v) trivial).exists_eq
    exact ⟨sol, t, hrun, h.isLeast hjumps hsettled hleast⟩

open Flow in
/-- Two blocks add a mask each, and the loop removes the one that enters it. -/
def loopMasks : Schedule where
  gens := [("entry", [.ofList [0]]), ("loop", [.ofList [1]])]
  kills := [("loop", .ofList [0])]

open Flow in
/-- A loop, and a block that nothing jumps to.  What the loop adds enters it again, and what it removes
does not leave it. -/
theorem solve_least_solution_looped : ∃ p, Program.parse "m" looped = .ok p ∧
    (∃ (prob : Problem Unit Bool) (sol : Solution Bool),
      prob.transfer true false true = false ∧
      solve prob p 0 (fun _ _ => pure ()) () = (.ok sol, ()) ∧
      sol.IsLeast prob p 0 (fun b => b.index == 1) (fun b => b.index == 2)) ∧
    ∃ sol t, loopMasks.solve p 0 {} = (.ok sol, t) ∧
      1 ∈ sol.ins.val ⟨0, 1⟩ ∧ 0 ∉ sol.outs.val ⟨0, 1⟩ := by
  obtain ⟨p, hp, hfacts⟩ : ∃ p, Program.parse "m" looped = .ok p ∧
      ((p.func 0).blocks.size == 4 && p.successors ⟨0, 1⟩ == [⟨0, 1⟩, ⟨0, 2⟩] &&
        (p.block ⟨0, 1⟩).name == "loop") = true :=
    Program.exists_of_parse (by decide +kernel)
  simp only [Bool.and_eq_true, beq_iff_eq] at hfacts
  obtain ⟨⟨hsize, hloop⟩, hname⟩ := hfacts
  have hjumps : p.JumpsWithin 0 := (Program.wellFormed_of_parse hp).1.jumpsWithin 0
  obtain ⟨hsolve, hexists, hmasks⟩ := @solve_least_solution Unit Bool _ _ p 0 hjumps
  refine ⟨p, hp, ?_, ?_⟩
  · obtain ⟨prob, htransfer, hsteady⟩ := hexists 2 (fun b => b.index == 1) (fun b => b.index == 2)
      (fun s g k => (s && !k) || g) (fun c => c.length_lt_card.le) (by decide)
    obtain ⟨sol, t, hrun, hleast⟩ :=
      hsolve prob _ _ _ (fun _ _ => pure ()) () hsteady (fun _ _ _ _ => trivial) trivial
    exact ⟨prob, sol, by rw [htransfer]; rfl, hrun, hleast⟩
  · obtain ⟨sol, t, hrun, hleast⟩ := hmasks loopMasks {} ⟨by decide, rfl⟩
    have hb : (⟨0, 1⟩ : BlockRef) ∈ p.blockRefs 0 :=
      Program.mem_blockRefs.mpr ⟨rfl, hsize ▸ (by decide : 1 < 4)⟩
    have hpred : (⟨0, 1⟩ : BlockRef) ∈ p.predecessors ⟨0, 1⟩ :=
      (Program.mem_predecessors hb).mpr ⟨hb, by simp [hloop]⟩
    have hback := (hleast.solves.enter _ hb).1 ⟨_, hpred, rfl⟩
    have hleave : sol.outs.val ⟨0, 1⟩ =
        ((sol.ins.val ⟨0, 1⟩).diff (.ofList [0])).union (.ofList [1]) := by
      have hadded : loopMasks.added p ⟨0, 1⟩ = .ofList [1] := by
        unfold Schedule.added
        rw [hname]
        rfl
      have hremoved : loopMasks.removed p ⟨0, 1⟩ = .ofList [0] := by
        unfold Schedule.removed
        rw [hname]
        rfl
      rw [hleast.solves.leave _ hb, hadded, hremoved]
      rfl
    refine ⟨sol, t, hrun, hback 1 ?_, ?_⟩
    · rw [hleave, BitSet.has_union]
      simp [BitSet.has_ofList]
    · rw [hleave, BitSet.mem_iff, BitSet.has_union, BitSet.has_diff]
      simp [BitSet.has_ofList]

end Midend
