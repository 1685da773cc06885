import Mathlib.Data.List.Sort
import Midend.Proofs.Flow.Digraphs

/-!
# The jumps of a function

The snapshot of a function has an edge for each of its jumps to another block, and a loop for each jump of a
block to itself, as long as no jump leaves the function.  Then the snapshot can always be taken.  Jumps are
added one after the other, and what is there after each of them is told by the jumps up to there.  This holds
in any library of graphs.

## Main definitions

* `Program.JumpsWithin`: the jumps of a function go to its own blocks.
* `Graph.Records`: a graph has the given jumps.
* `Graph.taken`: the snapshot in lists of edges.

## Main results

* `Graph.Records.addJump`, `Graph.Records.addJumps`: one jump, and one after the other.
* `Graph.exists_ofFunc`: the snapshot can be taken.
* `Graph.Records.predecessors_eq`: predecessors in the snapshot are the blocks that jump.
-/

namespace Midend

namespace Program

variable {p : Program} {f : FuncId} {b : BlockRef}

theorem mem_blockRefs : b ∈ p.blockRefs f ↔ b.func = f ∧ b.index < (p.func f).blocks.size := by
  obtain ⟨f', k⟩ := b
  simp only [blockRefs, List.mem_map, List.mem_range, BlockRef.mk.injEq]
  constructor
  · rintro ⟨j, hj, rfl, rfl⟩
    exact ⟨rfl, hj⟩
  · rintro ⟨rfl, hk⟩
    exact ⟨k, hk, rfl, rfl⟩

/-- The blocks of a function stand in the order of their positions. -/
theorem pairwise_blockRefs (p : Program) (f : FuncId) :
    (p.blockRefs f).Pairwise fun b c => b.index < c.index := by
  rw [blockRefs, List.pairwise_map]
  exact List.pairwise_lt_range

theorem nodup_blockRefs (p : Program) (f : FuncId) : (p.blockRefs f).Nodup :=
  (p.pairwise_blockRefs f).imp fun hlt heq => Nat.ne_of_lt hlt (congrArg BlockRef.index heq)

theorem mem_allBlockRefs (h : b ∈ p.blockRefs f) : b ∈ p.allBlockRefs := by
  unfold allBlockRefs
  rw [List.mem_flatMap]
  refine ⟨f, List.mem_range.mpr (Nat.lt_of_not_le fun hle => ?_), h⟩
  -- A function that is not there has no blocks.
  have hblocks := (mem_blockRefs.mp h).2
  rw [func, Array.getD_eq_getD_getElem?, Array.getElem?_eq_none hle] at hblocks
  exact absurd hblocks (Nat.not_lt_zero _)

/-- A predecessor of a block of a function is a block of that function that jumps to it. -/
theorem mem_predecessors {c : BlockRef} (hb : b ∈ p.blockRefs f) :
    c ∈ p.predecessors b ↔ c ∈ p.blockRefs f ∧ b ∈ p.successors c := by
  obtain ⟨rfl, -⟩ := mem_blockRefs.mp hb
  unfold predecessors
  rw [List.mem_filter, List.contains_iff_mem]

theorem predecessors_sublist (hb : b ∈ p.blockRefs f) :
    (p.predecessors b).Sublist (p.blockRefs f) := by
  rw [← (mem_blockRefs.mp hb).1]
  exact List.filter_sublist

/-- Every jump of the function goes to one of its blocks. -/
def JumpsWithin (p : Program) (f : FuncId) : Prop :=
  ∀ b ∈ p.blockRefs f, ∀ t ∈ p.successors b, t ∈ p.blockRefs f

end Program

namespace Flow

theorem mem_jumps {p : Program} {f : FuncId} {b t : BlockRef} :
    (b, t) ∈ jumps p f ↔ b ∈ p.blockRefs f ∧ t ∈ p.successors b := by
  simp only [jumps, List.mem_flatMap, List.mem_map, Prod.mk.injEq]
  constructor
  · rintro ⟨b, hb, t, ht, rfl, rfl⟩
    exact ⟨hb, ht⟩
  · rintro ⟨hb, ht⟩
    exact ⟨b, hb, t, ht, rfl, rfl⟩

/-! ### Sorting -/

theorem sortByIndex_eq (l : List BlockRef) :
    sortByIndex l = l.insertionSort fun b c => b.index ≤ c.index := by
  have hinsert : insertByIndex = List.orderedInsert fun b c => b.index ≤ c.index := by
    funext b l
    induction l with
    | nil => rfl
    | cons c l ih => rw [insertByIndex, List.orderedInsert_cons, ih]
  unfold sortByIndex List.insertionSort
  rw [hinsert]

/-- Blocks at different positions can be sorted in one way only. -/
theorem sortByIndex_of_perm {l sorted : List BlockRef} (hperm : l.Perm sorted)
    (hsorted : sorted.Pairwise fun b c => b.index < c.index) : sortByIndex l = sorted := by
  rw [sortByIndex_eq]
  have hperm' := (List.perm_insertionSort (fun b c : BlockRef => b.index ≤ c.index) l).trans hperm
  refine hperm'.eq_of_pairwise (fun b c hb hc hbc hcb => ?_)
    (List.pairwise_insertionSort (fun b c : BlockRef => b.index ≤ c.index) l)
    (hsorted.imp Nat.le_of_lt)
  have hdistinct : (sorted.map BlockRef.index).Nodup := by
    rw [List.Nodup, List.pairwise_map]
    exact hsorted.imp Nat.ne_of_lt
  exact List.inj_on_of_nodup_map hdistinct (hperm'.mem_iff.mp hb) hc (Nat.le_antisymm hbc hcb)

namespace Graph

variable {G : Type} [Digraphs G]

/-! ### Adding jumps -/

/-- The graph has the given jumps of the function. -/
structure Records (g : Graph G) (f : FuncId) (js : List (BlockRef × BlockRef)) : Prop where
  func : g.func = f
  /-- Jumps from one block to another are edges. -/
  edge : ∀ j k, Digraphs.Edge g.edges j k ↔ ∃ b t, (b, t) ∈ js ∧ t ≠ b ∧ b.index = j ∧ t.index = k
  /-- Jumps of a block to itself are kept aside. -/
  loop : ∀ b, b ∈ g.loops ↔ (b, b) ∈ js

variable [LawfulDigraphs G] {g : Graph G} {f : FuncId} {js : List (BlockRef × BlockRef)}

/-- **One jump,** which may lead to another block at the same position only if it is the same block. -/
theorem Records.addJump (h : g.Records f js) {b t : BlockRef} (hindex : t ≠ b → b.index ≠ t.index) :
    ∃ g', g.addJump (b, t) = .ok g' ∧ g'.Records f (js ++ [(b, t)]) := by
  unfold Graph.addJump
  by_cases htb : t = b
  · subst htb
    rw [if_pos rfl]
    refine ⟨_, rfl, h.func, fun j k => (h.edge j k).trans ?_, fun c => ?_⟩
    · simp only [List.mem_append, List.mem_singleton, Prod.mk.injEq]
      grind
    · have hloop := h.loop c
      simp only [List.mem_append, List.mem_singleton, Prod.mk.injEq, and_self, ← hloop]
      split
      · next hmem =>
        refine ⟨.inl, fun hc => hc.elim id ?_⟩
        rintro rfl
        exact List.contains_iff_mem.mp hmem
      · exact List.mem_cons.trans or_comm
  · obtain ⟨edges, hset, hedges⟩ := LawfulDigraphs.setEdge_ne g.edges b.index t.index (hindex htb)
    simp only [if_neg htb, hset]
    refine ⟨_, rfl, h.func, fun j k => (hedges j k).trans ?_, fun c => (h.loop c).trans ?_⟩
    · rw [h.edge]
      simp only [List.mem_append, List.mem_singleton, Prod.mk.injEq]
      constructor
      · rintro (⟨c, u, hcu, hrest⟩ | ⟨rfl, rfl⟩)
        · exact ⟨c, u, .inl hcu, hrest⟩
        · exact ⟨b, t, .inr ⟨rfl, rfl⟩, htb, rfl, rfl⟩
      · rintro ⟨c, u, hcu | ⟨rfl, rfl⟩, hne, rfl, rfl⟩
        · exact .inl ⟨c, u, hcu, hne, rfl, rfl⟩
        · exact .inr ⟨rfl, rfl⟩
    · simp only [List.mem_append, List.mem_singleton, Prod.mk.injEq]
      grind

/-- **One jump after the other.** -/
theorem Records.addJumps (h : g.Records f js) (l : List (BlockRef × BlockRef))
    (hindex : ∀ b t, (b, t) ∈ l → t ≠ b → b.index ≠ t.index) :
    ∃ g', l.foldlM Graph.addJump g = .ok g' ∧ g'.Records f (js ++ l) := by
  induction l generalizing g js with
  | nil =>
    rw [List.append_nil]
    exact ⟨g, rfl, h⟩
  | cons e l ih =>
    obtain ⟨g₁, hadd, h₁⟩ := h.addJump (hindex e.1 e.2 List.mem_cons_self)
    obtain ⟨g₂, hrest, h₂⟩ := ih h₁ fun b t hbt => hindex b t (List.mem_cons_of_mem e hbt)
    rw [List.append_assoc] at h₂
    refine ⟨g₂, ?_, h₂⟩
    rw [List.foldlM_cons]
    exact (congrArg (· >>= _) hadd).trans hrest

theorem records_addNodes (f : FuncId) (blocks : List BlockRef) :
    (⟨f, blocks.foldl (fun g b => Digraphs.addNode g b.index) Digraphs.empty, []⟩ : Graph G).Records
      f [] := by
  have hnone : ∀ (g : G), (∀ j k, ¬ Digraphs.Edge g j k) → ∀ j k,
      ¬ Digraphs.Edge (blocks.foldl (fun g b => Digraphs.addNode g b.index) g) j k := by
    induction blocks with
    | nil => exact fun _ hg => hg
    | cons b blocks ih =>
      refine fun g hg => ih _ fun j k => ?_
      rw [LawfulDigraphs.edge_addNode]
      exact hg j k
  refine ⟨rfl, fun j k => ?_, fun b => ?_⟩
  · refine iff_of_false (hnone _ LawfulDigraphs.edge_empty j k) ?_
    rintro ⟨b, t, hbt, -⟩
    cases hbt
  · exact iff_of_false List.not_mem_nil List.not_mem_nil

variable {p : Program}

/-- **The snapshot can be taken,** and it has the jumps of the function. -/
theorem exists_ofFunc (h : p.JumpsWithin f) :
    ∃ g : Graph G, ofFunc p f = .ok g ∧ g.Records f (jumps p f) := by
  have hstart := records_addNodes (G := G) f (p.blockRefs f)
  refine hstart.addJumps (jumps p f) fun b t hbt hne hindex => hne ?_
  -- Two blocks of one function are told apart by their positions.
  obtain ⟨hb, ht⟩ := mem_jumps.mp hbt
  obtain ⟨hfunc, -⟩ := Program.mem_blockRefs.mp hb
  obtain ⟨hfunc', -⟩ := Program.mem_blockRefs.mp (h b hb t ht)
  cases b
  cases t
  simp_all

/-! ### Predecessors -/

namespace Records

variable (h : g.Records f (jumps p f)) (hjumps : p.JumpsWithin f)

include h hjumps

omit [LawfulDigraphs G] in
/-- Edges are the jumps between different blocks. -/
theorem edge_iff {j k : Nat} : Digraphs.Edge g.edges j k ↔
    j ≠ k ∧ (⟨f, j⟩ : BlockRef) ∈ p.blockRefs f ∧ (⟨f, k⟩ : BlockRef) ∈ p.successors ⟨f, j⟩ := by
  rw [h.edge]
  constructor
  · rintro ⟨b, t, hbt, hne, rfl, rfl⟩
    obtain ⟨hb, ht⟩ := mem_jumps.mp hbt
    have hfunc : b.func = f := (Program.mem_blockRefs.mp hb).1
    have hfunc' : t.func = f := (Program.mem_blockRefs.mp (hjumps b hb t ht)).1
    have hb' : (⟨f, b.index⟩ : BlockRef) = b := by rw [← hfunc]
    have ht' : (⟨f, t.index⟩ : BlockRef) = t := by rw [← hfunc']
    rw [hb', ht']
    refine ⟨fun heq => hne ?_, hb, ht⟩
    rw [← hb', ← ht', heq]
  · rintro ⟨hne, hb, ht⟩
    refine ⟨⟨f, j⟩, ⟨f, k⟩, mem_jumps.mpr ⟨hb, ht⟩, fun heq => ?_, rfl, rfl⟩
    exact hne (congrArg BlockRef.index heq).symm

/-- **The predecessors of a block in the snapshot are the blocks that jump to it.** -/
theorem predecessors_eq {b : BlockRef} (hb : b ∈ p.blockRefs f) :
    g.predecessors b = p.predecessors b := by
  have hsublist := Program.predecessors_sublist hb
  refine sortByIndex_of_perm ?_ ((p.pairwise_blockRefs f).sublist hsublist)
  obtain ⟨f', k⟩ := b
  obtain ⟨rfl, -⟩ := Program.mem_blockRefs.mp hb
  have hmem : ∀ c, c ∈ (Digraphs.sources g.edges k).map (⟨g.func, ·⟩ : Nat → BlockRef) ↔
      c ≠ ⟨f', k⟩ ∧ c ∈ p.predecessors ⟨f', k⟩ := by
    rintro ⟨f'', j⟩
    rw [Program.mem_predecessors hb, List.mem_map, h.func]
    constructor
    · rintro ⟨j, hj, rfl, rfl⟩
      obtain ⟨hne, hj⟩ := (h.edge_iff hjumps).mp hj
      exact ⟨fun heq => hne (congrArg BlockRef.index heq), hj⟩
    · rintro ⟨hne, hj⟩
      obtain ⟨rfl, -⟩ := Program.mem_blockRefs.mp hj.1
      refine ⟨j, (h.edge_iff hjumps).mpr ⟨fun heq => hne ?_, hj⟩, rfl⟩
      rw [heq]
  have hnodup : ((Digraphs.sources g.edges k).map (⟨g.func, ·⟩ : Nat → BlockRef)).Nodup :=
    (LawfulDigraphs.nodup_sources g.edges k).map fun _ _ heq => congrArg BlockRef.index heq
  have hloop : g.loops.contains ⟨f', k⟩ = true ↔ (⟨f', k⟩ : BlockRef) ∈ p.predecessors ⟨f', k⟩ := by
    rw [List.contains_iff_mem, h.loop, mem_jumps, Program.mem_predecessors hb]
  have hself := hmem ⟨f', k⟩
  refine (List.perm_ext_iff_of_nodup ?_ ((p.nodup_blockRefs f').sublist hsublist)).mpr fun c => ?_
  · split
    · rw [List.nodup_append]
      exact ⟨hnodup, List.nodup_singleton _, by grind⟩
    · exact hnodup
  · split <;> grind

end Records

/-! ### Lists of edges -/

/-- The snapshot of a function in lists of edges, where it can be taken. -/
def taken (p : Program) (f : FuncId) : Graph EdgeList :=
  match ofFunc p f with
  | .ok g => g
  | .error _ => ⟨f, Digraphs.empty, []⟩

theorem ofFunc_eq (h : p.JumpsWithin f) : ofFunc p f = .ok (taken p f) := by
  obtain ⟨g, hg, -⟩ := exists_ofFunc (G := EdgeList) h
  rw [taken, hg]

theorem predecessors_taken (h : p.JumpsWithin f) {b : BlockRef} (hb : b ∈ p.blockRefs f) :
    (taken p f).predecessors b = p.predecessors b := by
  obtain ⟨g, hg, hrecords⟩ := exists_ofFunc (G := EdgeList) h
  rw [taken, hg]
  exact hrecords.predecessors_eq h hb

theorem mem_predecessors_taken (h : p.JumpsWithin f) {b c : BlockRef} (hb : b ∈ p.blockRefs f) :
    c ∈ (taken p f).predecessors b ↔ c ∈ p.blockRefs f ∧ b ∈ p.successors c := by
  rw [predecessors_taken h hb, Program.mem_predecessors hb]

end Graph

end Flow

end Midend
