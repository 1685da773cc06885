import Mathlib.Order.BoundedOrder.Lattice
import Midend.Proofs.Flow.ControlGraph
import Midend.Proofs.Flow.SolverRounds

/-!
# What the solver finds

For a problem over a join-semilattice in which a block always adds and removes the same, the solver
ends without a fault and finds the least sets that satisfy the equations of the problem.

Two facts carry the proof.  A block that is not on the stack is settled: what is noted for it follows
from what leaves its predecessors now, since a change there would have put it back on the stack.  And
what leaves a block is never more than what is to leave it next, so no set ever shrinks, nor more than
what leaves it in any sets that are closed under the equations.

## Main definitions

* `Problem.Steady`: a problem of the kind above.
* `Solution.Settled`: what is noted for a block follows from what leaves its predecessors.
* `Closed`: sets that include all that the equations demand.

## Main results

* `Working.visit`: one visit.
* `succeeds_solve`: the solver.
-/

namespace Midend.Flow

variable {σ S : Type} [SemilatticeSup S] [OrderBot S]

/-- What is noted for a block, the least set if nothing is. -/
def BlockMap.val (m : BlockMap S) (b : BlockRef) : S := (m.get? b).getD ⊥

theorem BlockMap.val_of_get? {m : BlockMap S} {b : BlockRef} {s : S} (h : m.get? b = some s) :
    m.val b = s := by
  rw [val, h, Option.getD_some]

/-- In the function `f`, and as long as states have the property `I`, the block `b` always adds
`gen b`, removes `kill b` and jumps where it does in `p`, and the sets are ordered by inclusion. -/
structure Problem.Steady (prob : Problem σ S) (p : Program) (f : FuncId) (I : σ → Prop)
    (gen kill : BlockRef → S) : Prop where
  init : prob.init = ⊥
  merge : ∀ s t, prob.merge s t = s ⊔ t
  equal : ∀ s t, prob.equal s t = true ↔ s = t
  includes : ∀ s t, prob.includes s t = true ↔ t ≤ s
  monotone : ∀ b ∈ p.blockRefs f, ∀ s t, s ≤ t →
    prob.transfer s (gen b) (kill b) ≤ prob.transfer t (gen b) (kill b)
  adds : ∀ b ∈ p.blockRefs f, ∀ s, I s → (prob.gen b).Succeeds s fun r t => r = gen b ∧ I t
  removes : ∀ b ∈ p.blockRefs f, ∀ s, I s →
    (prob.kill b (gen b)).Succeeds s fun r t => r = kill b ∧ I t
  jumps : ∀ b ∈ p.blockRefs f, ∀ s, I s → (prob.program s).successors b = p.successors b

/-- The sets of what enters and what leaves each block include all that the equations demand. -/
structure Closed (prob : Problem σ S) (p : Program) (f : FuncId) (gen kill : BlockRef → S)
    (ins outs : BlockRef → S) : Prop where
  /-- What leaves a block enters the blocks it jumps to. -/
  enter : ∀ b ∈ p.blockRefs f, ∀ c ∈ p.blockRefs f, b ∈ p.successors c → outs c ≤ ins b
  /-- What enters a block, and is not removed, leaves it together with what the block adds. -/
  leave : ∀ b ∈ p.blockRefs f, prob.transfer (ins b) (gen b) (kill b) ≤ outs b

section Solver

variable {prob : Problem σ S} {p : Program} {f : FuncId} {I : σ → Prop} {gen kill : BlockRef → S}

/-! ### What enters a block -/

omit [OrderBot S] in
theorem foldl_sup_le_iff {α : Type} (l : List α) (g : α → S) (s x : S) :
    l.foldl (fun acc a => acc ⊔ g a) s ≤ x ↔ s ≤ x ∧ ∀ a ∈ l, g a ≤ x := by
  induction l generalizing s with
  | nil => simp
  | cons a l ih =>
    rw [List.foldl_cons, ih, sup_le_iff, and_assoc]
    simp

theorem Problem.Steady.entering_eq (h : prob.Steady p f I gen kill) (g : Graph EdgeList)
    (outs : BlockMap S) (b : BlockRef) :
    entering prob g outs b = (g.predecessors b).foldl (fun acc c => acc ⊔ outs.val c) ⊥ := by
  unfold entering BlockMap.val
  rw [h.init]
  congr 1
  funext acc c
  exact h.merge _ _

/-- What enters a block is the least set that includes what leaves its predecessors. -/
theorem Problem.Steady.entering_le_iff (h : prob.Steady p f I gen kill) (hjumps : p.JumpsWithin f)
    (outs : BlockMap S) {b : BlockRef} (hb : b ∈ p.blockRefs f) (x : S) :
    entering prob (.taken p f) outs b ≤ x ↔
      ∀ c ∈ p.blockRefs f, b ∈ p.successors c → outs.val c ≤ x := by
  rw [h.entering_eq, foldl_sup_le_iff]
  simp only [Graph.mem_predecessors_taken hjumps hb, and_imp, bot_le, true_and]

theorem Problem.Steady.val_le_entering (h : prob.Steady p f I gen kill) (hjumps : p.JumpsWithin f)
    (outs : BlockMap S) {b c : BlockRef} (hb : b ∈ p.blockRefs f) (hc : c ∈ p.blockRefs f)
    (hcb : b ∈ p.successors c) : outs.val c ≤ entering prob (.taken p f) outs b :=
  (h.entering_le_iff hjumps outs hb _).mp le_rfl c hc hcb

/-- It depends on the predecessors only. -/
theorem Problem.Steady.entering_congr (h : prob.Steady p f I gen kill) (hjumps : p.JumpsWithin f)
    {outs outs' : BlockMap S} {b : BlockRef} (hb : b ∈ p.blockRefs f)
    (hsame : ∀ c ∈ p.blockRefs f, b ∈ p.successors c → outs'.val c = outs.val c) :
    entering prob (.taken p f) outs' b = entering prob (.taken p f) outs b := by
  apply le_antisymm
  · rw [h.entering_le_iff hjumps outs' hb]
    intro c hc hcb
    rw [hsame c hc hcb]
    exact h.val_le_entering hjumps outs hb hc hcb
  · rw [h.entering_le_iff hjumps outs hb]
    intro c hc hcb
    rw [← hsame c hc hcb]
    exact h.val_le_entering hjumps outs' hb hc hcb

/-! ### The state of the work -/

/-- What leaves a block next. -/
def leavingNext (prob : Problem σ S) (p : Program) (f : FuncId) (gen kill : BlockRef → S)
    (outs : BlockMap S) (b : BlockRef) : S :=
  prob.transfer (entering prob (.taken p f) outs b) (gen b) (kill b)

/-- What is noted for a block follows from what leaves its predecessors. -/
structure Solution.Settled (prob : Problem σ S) (p : Program) (f : FuncId)
    (gen kill : BlockRef → S) (sol : Solution S) (b : BlockRef) : Prop where
  ins : sol.ins.get? b = some (entering prob (.taken p f) sol.outs b)
  gens : sol.gens.get? b = some (gen b)
  kills : sol.kills.get? b = some (kill b)
  outs : sol.outs.get? b = some (leavingNext prob p f gen kill sol.outs b)

/-- What holds while the solver is at work. -/
structure Working (prob : Problem σ S) (p : Program) (f : FuncId) (gen kill : BlockRef → S)
    (sol : Solution S) (stack : List BlockRef) : Prop where
  /-- Something is noted for every block. -/
  noted : ∀ b ∈ p.blockRefs f, (sol.ins.get? b).isSome ∧ (sol.gens.get? b).isSome ∧
    (sol.kills.get? b).isSome ∧ (sol.outs.get? b).isSome
  /-- The blocks on the stack are blocks of the function. -/
  within : ∀ b ∈ stack, b ∈ p.blockRefs f
  /-- All others are settled. -/
  settled : ∀ b ∈ p.blockRefs f, b ∈ stack ∨ sol.Settled prob p f gen kill b
  /-- What leaves a block does not shrink. -/
  rising : ∀ b ∈ p.blockRefs f, sol.outs.val b ≤ leavingNext prob p f gen kill sol.outs b
  /-- It is what has to leave it in any case. -/
  least : ∀ ins outs, Closed prob p f gen kill ins outs → ∀ b ∈ p.blockRefs f,
    sol.outs.val b ≤ outs b

/-- What leaves the blocks next grows with what leaves them now. -/
theorem leavingNext_mono (h : prob.Steady p f I gen kill) (hjumps : p.JumpsWithin f)
    {outs outs' : BlockMap S} (hle : ∀ c ∈ p.blockRefs f, outs.val c ≤ outs'.val c) {b : BlockRef}
    (hb : b ∈ p.blockRefs f) :
    leavingNext prob p f gen kill outs b ≤ leavingNext prob p f gen kill outs' b := by
  apply h.monotone b hb
  rw [h.entering_le_iff hjumps outs hb]
  intro c hc hcb
  exact (hle c hc).trans (h.val_le_entering hjumps outs' hb hc hcb)

section Visit

variable {sol sol' : Solution S} {stack stack' : List BlockRef} {b : BlockRef}
  (h : prob.Steady p f I gen kill) (hjumps : p.JumpsWithin f)
  (hw : Working prob p f gen kill sol (b :: stack))
  (hins : ∀ c, sol'.ins.get? c =
    if b = c then some (entering prob (.taken p f) sol.outs b) else sol.ins.get? c)
  (hgens : ∀ c, sol'.gens.get? c = if b = c then some (gen b) else sol.gens.get? c)
  (hkills : ∀ c, sol'.kills.get? c = if b = c then some (kill b) else sol.kills.get? c)
  (houts : ∀ c, sol'.outs.get? c =
    if b = c then some (leavingNext prob p f gen kill sol.outs b) else sol.outs.get? c)

include houts in
/-- What leaves the blocks after a visit. -/
theorem val_visit (c : BlockRef) : sol'.outs.val c =
    if b = c then leavingNext prob p f gen kill sol.outs b else sol.outs.val c := by
  rw [BlockMap.val, houts]
  split <;> rfl

include h hjumps hw hins hgens hkills houts

/-- A block that is not on the stack after the visit is settled. -/
theorem Working.settled_visit (hkeep : ∀ c ∈ stack, c ∈ stack')
    (hpush : sol.outs.val b = leavingNext prob p f gen kill sol.outs b ∨
      ∀ c ∈ p.successors b, c ∈ stack') {c : BlockRef} (hc : c ∈ p.blockRefs f) (hstack : c ∉ stack') :
    sol'.Settled prob p f gen kill c := by
  -- No predecessor of the block has changed, else the block would be on the stack.
  have henter : entering prob (.taken p f) sol'.outs c =
      entering prob (.taken p f) sol.outs c := by
    refine h.entering_congr hjumps hc fun d _ hdc => ?_
    rw [val_visit houts]
    split
    · next hbd =>
      subst hbd
      rcases hpush with hsame | hall
      · exact hsame.symm
      · exact absurd (hall c hdc) hstack
    · rfl
  have hnext : leavingNext prob p f gen kill sol'.outs c =
      leavingNext prob p f gen kill sol.outs c := by
    rw [leavingNext, henter, leavingNext]
  by_cases hbc : b = c
  · subst hbc
    refine ⟨?_, ?_, ?_, ?_⟩
    · rw [hins, if_pos rfl, henter]
    · rw [hgens, if_pos rfl]
    · rw [hkills, if_pos rfl]
    · rw [houts, if_pos rfl, hnext]
  · have hbefore : sol.Settled prob p f gen kill c := by
      refine (hw.settled c hc).resolve_left fun hmem => ?_
      rcases List.mem_cons.mp hmem with rfl | hmem
      · exact hbc rfl
      · exact hstack (hkeep c hmem)
    refine ⟨?_, ?_, ?_, ?_⟩
    · rw [hins, if_neg hbc, henter]
      exact hbefore.ins
    · rw [hgens, if_neg hbc]
      exact hbefore.gens
    · rw [hkills, if_neg hbc]
      exact hbefore.kills
    · rw [houts, if_neg hbc, hnext]
      exact hbefore.outs

/-- **A visit.**  The block is settled afterwards, unless it jumps to itself; if what leaves it has
changed, the blocks it jumps to are on the stack. -/
theorem Working.visit (hwithin : ∀ c ∈ stack', c ∈ p.blockRefs f)
    (hkeep : ∀ c ∈ stack, c ∈ stack')
    (hpush : sol.outs.val b = leavingNext prob p f gen kill sol.outs b ∨
      ∀ c ∈ p.successors b, c ∈ stack') : Working prob p f gen kill sol' stack' := by
  have hb : b ∈ p.blockRefs f := hw.within b List.mem_cons_self
  have hval := val_visit houts
  have hgrown : ∀ c ∈ p.blockRefs f, sol.outs.val c ≤ sol'.outs.val c := by
    intro c hc
    rw [hval]
    split
    · next hbc => exact hbc ▸ hw.rising b hb
    · exact le_rfl
  refine ⟨fun c hc => ?_, hwithin, fun c hc => ?_, fun c hc => ?_, fun ins outs hclosed c hc => ?_⟩
  · obtain ⟨hi, hg, hk, ho⟩ := hw.noted c hc
    rw [hins, hgens, hkills, houts]
    refine ⟨?_, ?_, ?_, ?_⟩ <;> split <;> first | rfl | assumption
  · by_cases hstack : c ∈ stack'
    · exact .inl hstack
    · exact .inr (hw.settled_visit h hjumps hins hgens hkills houts hkeep hpush hc hstack)
  · have hnext := leavingNext_mono h hjumps hgrown hc
    rw [hval]
    split
    · next hbc =>
      subst hbc
      exact hnext
    · exact (hw.rising c hc).trans hnext
  · rw [hval]
    split
    · next hbc =>
      subst hbc
      refine le_trans (h.monotone b hb _ _ ?_) (hclosed.leave b hb)
      rw [h.entering_le_iff hjumps sol.outs hb]
      intro d hd hdb
      exact (hw.least ins outs hclosed d hd).trans (hclosed.enter b hb d hd hdb)
    · exact hw.least ins outs hclosed c hc

end Visit

/-- Before the first visit all blocks are on the stack and nothing leaves them. -/
theorem Working.start (h : prob.Steady p f I gen kill) (unreachable : List BlockRef) :
    Working prob p f gen kill (.start prob p unreachable) (p.blockRefs f).reverse := by
  have hget : ∀ b ∈ p.blockRefs f,
      (BlockMap.fill p.allBlockRefs prob.init).get? b = some prob.init := by
    intro b hb
    rw [BlockMap.get?_fill, if_pos (Program.mem_allBlockRefs hb)]
  have hbot : ∀ b ∈ p.blockRefs f, (Solution.start prob p unreachable).outs.val b = ⊥ := by
    intro b hb
    rw [← h.init]
    exact BlockMap.val_of_get? (hget b hb)
  refine ⟨fun b hb => ?_, fun b hb => List.mem_reverse.mp hb,
    fun b hb => .inl (List.mem_reverse.mpr hb), fun b hb => ?_, fun ins outs _ b hb => ?_⟩
  · simp [Solution.start, hget b hb]
  · rw [hbot b hb]
    exact bot_le
  · rw [hbot b hb]
    exact bot_le

/-! ### The solver -/

/-- **The solver ends without a fault, and every block is settled then.**  What is found is included
in all sets that are closed under the equations. -/
theorem succeeds_solve (h : prob.Steady p f I gen kill) (hjumps : p.JumpsWithin f)
    {onChange : BlockRef → S → Act σ Unit}
    (hquiet : ∀ b out s, I s → (onChange b out).Succeeds s fun _ t => I t) {s : σ} (hs : I s) :
    (solve prob p f onChange).Succeeds s fun sol t => I t ∧
      (∀ b ∈ p.blockRefs f, sol.Settled prob p f gen kill b) ∧
      ∀ ins outs, Closed prob p f gen kill ins outs → ∀ b ∈ p.blockRefs f,
        sol.outs.val b ≤ outs b := by
  unfold solve
  rw [Graph.ofFunc_eq hjumps, Act.Succeeds, Act.ensures_bind, Act.ensures_ofExcept_ok]
  refine Act.Succeeds.mono (ensures_solveFrom prob p (.taken p f) onChange
    (fun sol stack t => I t ∧ Working prob p f gen kill sol stack) ?_ ?_ _ _ s ⟨hs, .start h _⟩)
    fun sol t ht => ⟨ht.1, fun b hb => ?_, ht.2.least⟩
  · -- Something is noted for every block on the stack, so none is passed over.
    rintro sol b stack t hnone ⟨-, hw⟩
    have hsome := (hw.noted b (hw.within b List.mem_cons_self)).2.2.2
    rw [hnone] at hsome
    cases hsome
  · rintro sol b stack t old hold ⟨ht, hw⟩
    have hb : b ∈ p.blockRefs f := hw.within b List.mem_cons_self
    obtain ⟨hi, hg, hk, -⟩ := hw.noted b hb
    obtain ⟨_, hi⟩ := Option.isSome_iff_exists.mp hi
    obtain ⟨_, hg⟩ := Option.isSome_iff_exists.mp hg
    obtain ⟨_, hk⟩ := Option.isSome_iff_exists.mp hk
    have hrising := hw.rising b hb
    rw [BlockMap.val_of_get? hold] at hrising
    refine Act.Succeeds.mono (h.adds b hb t ht) ?_
    rintro _ t₁ ⟨rfl, ht₁⟩
    refine Act.Succeeds.mono (h.removes b hb t₁ ht₁) ?_
    rintro _ t₂ ⟨rfl, ht₂⟩
    refine ⟨fun heq => ⟨ht₂, ?_⟩, fun _ _ => ?_, fun _ hshrunk => ?_⟩
    · have hsame : leavingNext prob p f gen kill sol.outs b = old := (h.equal _ _).mp heq
      refine hw.visit h hjumps (BlockMap.get?_set hi _) (BlockMap.get?_set hg _)
        (BlockMap.get?_set hk _) (fun c => ?_)
        (fun c hc => hw.within c (List.mem_cons_of_mem b hc)) (fun _ hc => hc) ?_
      · change sol.outs.get? c = _
        split
        · next hbc => rw [← hbc, hold, hsame]
        · rfl
      · rw [BlockMap.val_of_get? hold, hsame]
        exact .inl rfl
    · refine (hquiet b _ t₂ ht₂).mono fun _ t₃ ht₃ => ⟨ht₃, ?_⟩
      rw [h.jumps b hb t₃ ht₃]
      refine hw.visit h hjumps (BlockMap.get?_set hi _) (BlockMap.get?_set hg _)
        (BlockMap.get?_set hk _) (BlockMap.get?_set hold _) (fun c hc => ?_) (fun c hc => ?_) ?_
      · rcases List.mem_append.mp hc with hc | hc
        · exact hjumps b hb c (List.mem_reverse.mp hc)
        · exact hw.within c (List.mem_cons_of_mem b hc)
      · exact List.mem_append_right _ hc
      · exact .inr fun c hc => List.mem_append_left _ (List.mem_reverse.mpr hc)
    · exact absurd ((h.includes _ _).mpr hrising) (Bool.eq_false_iff.mp hshrunk)
  · exact (ht.2.settled b hb).resolve_left List.not_mem_nil

end Solver

end Midend.Flow
