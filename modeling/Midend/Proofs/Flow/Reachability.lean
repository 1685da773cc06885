import Midend.Proofs.Flow.ReachingStores

/-!
# Which blocks can be reached

The snapshot of a function leaves out the jumps of blocks to themselves, which lead nowhere else.  So there is
a path between two nodes of it just if there is a sequence of jumps between the blocks, and a walk of the
library from the first node comes to the blocks that can be reached.

## Main results

* `Flow.Graph.Records.reaches_iff`: paths in the snapshot are sequences of jumps.
* `Flow.Graph.ofFunc_exact`: the snapshot of a function against the jumps of its blocks, in any library.
-/

namespace Midend

namespace Flow.Graph

open Relation

variable {G : Type} [Digraphs G] {g : Graph G} {p : Program} {f : FuncId}

namespace Records

variable (h : g.Records f (jumps p f)) (hjumps : p.JumpsWithin f)

include h hjumps

/-- Nodes can be reached from one another just if the blocks can that are at these positions. -/
theorem reaches_iff {j k : Nat} :
    ReflTransGen (Digraphs.Edge g.edges) j k ↔ ReflTransGen (p.Edge f) ⟨f, j⟩ ⟨f, k⟩ := by
  constructor
  · refine ReflTransGen.lift (fun k => (⟨f, k⟩ : BlockRef)) (fun i m hedge => ?_) j k
    exact ((h.edge_iff hjumps).mp hedge).2
  · refine ReflTransGen.lift' BlockRef.index ?_ ⟨f, j⟩ ⟨f, k⟩
    rintro ⟨f₁, i⟩ ⟨f₂, m⟩ hedge
    obtain ⟨rfl, -⟩ := Program.mem_blockRefs.mp hedge.1
    obtain ⟨rfl, -⟩ := Program.mem_blockRefs.mp (hjumps _ hedge.1 _ hedge.2)
    -- A jump of a block to itself is no edge, but leads nowhere.
    by_cases him : i = m
    · subst him
      exact .refl
    · exact .single ((h.edge_iff hjumps).mpr ⟨him, hedge⟩)

/-- The walk does not come to the blocks that cannot be reached from the first one. -/
theorem mem_unreachable [LawfulDigraphs G] {b : BlockRef} :
    b ∈ g.unreachable p ↔ b ∈ p.blockRefs f ∧ ¬ ReflTransGen (p.Edge f) ⟨f, 0⟩ b := by
  unfold unreachable
  rw [List.mem_filter, h.func, Bool.not_eq_true', ← Bool.not_eq_true, LawfulDigraphs.visits_iff,
    h.reaches_iff hjumps]
  refine and_congr_right fun hb => ?_
  rw [← (Program.mem_blockRefs.mp hb).1]

end Records

/-- **The snapshot of a function says what its jumps say,** in any library of directed graphs.  If the jumps of
a function stay within it, the snapshot can be taken.  The predecessors of a block in the snapshot are its
predecessors in the program, as one and the same list: the blocks that jump to it, which may be one of them
itself, in the order of the function and each once, which is the order of the numbers they have been given.
The unreachable blocks, again in that order and each once, are those to which no sequence of jumps leads from
the first block. -/
theorem ofFunc_exact [LawfulDigraphs G] (h : p.JumpsWithin f) :
    ∃ g : Graph G, ofFunc p f = .ok g ∧
    (∀ b ∈ p.blockRefs f, g.predecessors b = p.predecessors b ∧
      (p.predecessors b).Sublist (p.blockRefs f) ∧ (p.predecessors b).Nodup ∧
      (p.Arranged → (p.predecessors b).Pairwise fun c d => (p.block c).id < (p.block d).id) ∧
      ∀ c, c ∈ p.predecessors b ↔ c ∈ p.blockRefs f ∧ b ∈ p.successors c) ∧
    (g.unreachable p).Sublist (p.blockRefs f) ∧ (g.unreachable p).Nodup ∧
    ∀ b, b ∈ g.unreachable p ↔ b ∈ p.blockRefs f ∧ ¬ ReflTransGen (p.Edge f) ⟨f, 0⟩ b := by
  obtain ⟨g, hg, hrecords⟩ := exists_ofFunc (G := G) h
  have hdistinct := p.nodup_blockRefs f
  have hunreachable : (g.unreachable p).Sublist (p.blockRefs f) := by
    rw [← hrecords.func]
    exact List.filter_sublist
  refine ⟨g, hg, fun b hb => ?_, hunreachable, hdistinct.sublist hunreachable,
    fun b => hrecords.mem_unreachable h⟩
  have hsublist := Program.predecessors_sublist hb
  refine ⟨hrecords.predecessors_eq h hb, hsublist, hdistinct.sublist hsublist, fun harranged => ?_,
    fun c => Program.mem_predecessors hb⟩
  have hnumber : ∀ c ∈ p.predecessors b, (p.block c).id = c.index := by
    intro c hc
    obtain ⟨rfl, hlt⟩ := Program.mem_blockRefs.mp (hsublist.subset hc)
    exact harranged.number c hlt
  refine ((p.pairwise_blockRefs f).sublist hsublist).imp_of_mem fun hc hd hlt => ?_
  rwa [hnumber _ hc, hnumber _ hd]

/-- The loop is a predecessor of itself, and nothing leads to the last block although it has a jump. -/
theorem ofFunc_exact_looped : ∃ p, Program.parse "m" looped = .ok p ∧ p.JumpsWithin 0 ∧
    ∃ g : Graph EdgeList, ofFunc p 0 = .ok g ∧ g.loops = [⟨0, 1⟩] ∧
    g.predecessors ⟨0, 1⟩ = p.predecessors ⟨0, 1⟩ ∧
    p.predecessors ⟨0, 1⟩ = [⟨0, 0⟩, ⟨0, 1⟩] ∧ ⟨0, 1⟩ ∈ p.successors ⟨0, 1⟩ ∧
    g.unreachable p = [⟨0, 3⟩] ∧ ¬ ReflTransGen (p.Edge 0) ⟨0, 0⟩ ⟨0, 3⟩ ∧
    ReflTransGen (p.Edge 0) ⟨0, 0⟩ ⟨0, 2⟩ := by
  obtain ⟨p, hp, hfacts⟩ : ∃ p, Program.parse "m" looped = .ok p ∧
      (p.blockRefs 0 == [⟨0, 0⟩, ⟨0, 1⟩, ⟨0, 2⟩, ⟨0, 3⟩] &&
        p.predecessors ⟨0, 1⟩ == [⟨0, 0⟩, ⟨0, 1⟩] &&
        (ofFunc p 0 : Except Fault (Graph EdgeList)).toOption.map (fun g => (g.loops, g.unreachable p)) ==
          some ([⟨0, 1⟩], [⟨0, 3⟩])) = true :=
    Program.exists_of_parse (by decide +kernel)
  simp only [Bool.and_eq_true, beq_iff_eq] at hfacts
  obtain ⟨⟨hblocks, hpreds⟩, hsnapshot⟩ := hfacts
  have hjumps := (Program.wellFormed_of_parse hp).1.jumpsWithin 0
  obtain ⟨g, hg, hexact, -, -, hfar⟩ := ofFunc_exact (G := EdgeList) hjumps
  obtain ⟨hsame, -, -, -, hmem⟩ := hexact ⟨0, 1⟩ (by simp [hblocks])
  rw [hg] at hsnapshot
  obtain ⟨hloops, hunreachable⟩ := Prod.mk.inj (Option.some.inj hsnapshot)
  rw [hunreachable, hblocks] at hfar
  refine ⟨p, hp, hjumps, g, hg, hloops, hsame, hpreds, ?_, hunreachable, ?_, ?_⟩
  · exact ((hmem ⟨0, 1⟩).mp (by simp [hpreds])).2
  · exact ((hfar ⟨0, 3⟩).mp (by simp)).2
  · exact Classical.not_not.mp fun hno => by simpa using (hfar ⟨0, 2⟩).mpr ⟨by simp, hno⟩

end Flow.Graph

end Midend
