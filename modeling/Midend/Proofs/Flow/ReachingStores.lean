import Mathlib.Logic.Relation
import Midend.Proofs.Flow.SolverFixedPoint
import Midend.Proofs.Pass.ConstProp
import Midend.Proofs.Source.ResolvedPrograms

/-!
# Which stores reach a block

The stores that leave a block are the stores of the blocks from which it can be reached, itself
included; the stores that enter it are those of the blocks from which it can be reached by at least
one jump.  That a block removes some of its own stores makes no difference, since it adds them again.

## Main definitions

* `Program.Edge`: a jump between blocks of a function.

## Main results

* `steady_reachingStores`: reaching stores are a problem of the kind that has a least solution.
* `solveReachingStores_exact`: the stores that enter and leave the blocks of a function.
-/

namespace Midend

namespace Flow

/-! ### Sets in their order -/

namespace BitSet

variable {n : Nat}

instance : SemilatticeSup (BitSet n) where
  le s t := ∀ i, s.has i = true → t.has i = true
  le_refl _ _ := id
  le_trans _ _ _ hst htu i hi := htu i (hst i hi)
  le_antisymm _ _ hst hts := ext_has fun i => Bool.eq_iff_iff.mpr ⟨hst i, hts i⟩
  sup := union
  le_sup_left _ _ i hi := by simp [hi]
  le_sup_right _ _ i hi := by simp [hi]
  sup_le _ _ _ hsu htu i hi := by
    change (union _ _).has i = true at hi
    rw [has_union, Bool.or_eq_true] at hi
    exact hi.elim (hsu i) (htu i)

instance : OrderBot (BitSet n) where
  bot := empty
  bot_le _ i hi := by
    change empty.has i = true at hi
    rw [has_empty] at hi
    cases hi

theorem mem_iff {s : BitSet n} {i : Nat} : i ∈ s ↔ s.has i = true := Iff.rfl

open Classical in
/-- The set of the numbers below the bound that have a property. -/
noncomputable def ofPred (n : Nat) (P : Nat → Prop) : BitSet n :=
  ofList ((List.range n).filter fun i => decide (P i))

theorem has_ofPred {P : Nat → Prop} {i : Nat} : (ofPred n P).has i = true ↔ P i ∧ i < n := by
  classical
  rw [ofPred, has_ofList, List.mem_filter, List.mem_range, decide_eq_true_iff]
  constructor
  · rintro ⟨⟨hlt, hP⟩, -⟩
    exact ⟨hP, hlt⟩
  · rintro ⟨hP, hlt⟩
    exact ⟨⟨hlt, hP⟩, hlt⟩

end BitSet

/-! ### The problem -/

section Steady

variable {σ : Type} {p : Program} {f : FuncId} {read : σ → Program} {n : Nat}
  (hstores : ∀ b ∈ p.blockRefs f, ∀ i ∈ storesOf p b, (p.instr i).operands.length = 2)

/-- What a block removes, if its stores have addresses. -/
def killed (n : Nat) (p : Program) (b : BlockRef) : InstrSet n :=
  ((killSet n p b).toOption).getD .empty

include hstores

theorem killSet_eq_killed {b : BlockRef} (hb : b ∈ p.blockRefs f) :
    killSet n p b = .ok (killed n p b) ∧
      ∀ i, (killed n p b).has i = true → (genSet n p b).has i = true := by
  obtain ⟨kill, hkill, hsub⟩ := exists_killSet (n := n) (hstores b hb)
  have hkilled : killed n p b = kill := by
    rw [killed, hkill]
    rfl
  rw [hkilled]
  exact ⟨hkill, hsub⟩

/-- As long as nobody edits the program, a block always adds and removes the same stores. -/
theorem steady_reachingStores :
    (reachingStores n read).Steady p f (fun s => read s = p) (genSet n p) (killed n p) where
  init := rfl
  merge _ _ := rfl
  equal _ _ := decide_eq_true_iff
  includes _ _ := BitSet.subset_iff
  monotone b _ s t hst i hi := by
    have hst' := hst i
    change (transferStores _ _ _).has i = true at hi ⊢
    unfold transferStores at hi ⊢
    simp only [BitSet.has_union, BitSet.has_diff] at hi ⊢
    grind
  adds b _ s hs := by
    change genSet n (read s) b = genSet n p b ∧ read s = p
    rw [hs]
    exact ⟨rfl, rfl⟩
  removes b hb s hs := by
    have hrun : (reachingStores n read).kill b (genSet n p b) s = (.ok (killed n p b), s) := by
      change Act.ofExcept (killSet n (read s) b) s = _
      rw [hs, (killSet_eq_killed hstores hb).1]
      rfl
    rw [Act.Succeeds, Act.ensures_of_run hrun]
    exact ⟨rfl, hs⟩
  jumps b _ s hs := congrArg (Program.successors · b) hs

/-- What leaves a block is what enters it together with its stores. -/
theorem has_transferStores_killed {b : BlockRef} (hb : b ∈ p.blockRefs f) (inn : InstrSet n)
    (i : Nat) : (transferStores inn (genSet n p b) (killed n p b)).has i = true ↔
      inn.has i = true ∨ i ∈ storesOf p b ∧ i < n := by
  rw [has_transferStores (killSet_eq_killed hstores hb).2, genSet, BitSet.has_ofList]

end Steady

/-! ### Paths -/

end Flow

/-- A jump between blocks of a function. -/
def Program.Edge (p : Program) (f : FuncId) (c b : BlockRef) : Prop :=
  c ∈ p.blockRefs f ∧ b ∈ p.successors c

namespace Flow

open Relation

variable {σ : Type} {p : Program} {f : FuncId} {read : σ → Program}

/-- Stores are among the instructions of the program. -/
theorem lt_size_of_mem_storesOf {b : BlockRef} {i : InstrId} (h : i ∈ storesOf p b) :
    i < p.instrs.size := by
  obtain ⟨-, hop⟩ := mem_storesOf.mp h
  refine Nat.lt_of_not_le fun hle => ?_
  rw [Program.instr_of_size_le hle] at hop
  cases hop

/-- The stores of the blocks from which there is a path to a block. -/
noncomputable def storesAlong (p : Program) (path : BlockRef → BlockRef → Prop) (b : BlockRef) :
    InstrSet p.instrs.size :=
  .ofPred _ fun i => ∃ c, path c b ∧ i ∈ storesOf p c

theorem has_storesAlong {path : BlockRef → BlockRef → Prop} {b : BlockRef} {i : Nat} :
    (storesAlong p path b).has i = true ↔ ∃ c, path c b ∧ i ∈ storesOf p c := by
  rw [storesAlong, BitSet.has_ofPred]
  refine and_iff_left_of_imp ?_
  rintro ⟨c, -, hi⟩
  exact lt_size_of_mem_storesOf hi

section Paths

variable (hjumps : p.JumpsWithin f)
  (hstores : ∀ b ∈ p.blockRefs f, ∀ i ∈ storesOf p b, (p.instr i).operands.length = 2)

include hstores

/-- The stores along paths include all that the equations demand. -/
theorem closed_storesAlong :
    Closed (reachingStores p.instrs.size read) p f (genSet _ p) (killed _ p)
      (storesAlong p (TransGen (p.Edge f))) (storesAlong p (ReflTransGen (p.Edge f))) := by
  refine ⟨fun d _ c hc hcd i hi => ?_, fun d hd i hi => ?_⟩
  · rw [has_storesAlong] at hi ⊢
    obtain ⟨e, hec, hi⟩ := hi
    exact ⟨e, TransGen.tail' hec ⟨hc, hcd⟩, hi⟩
  · have hi' := (has_transferStores_killed hstores hd _ i).mp hi
    rw [has_storesAlong] at hi' ⊢
    rcases hi' with ⟨c, hcd, hi⟩ | ⟨hi, -⟩
    · exact ⟨c, hcd.to_reflTransGen, hi⟩
    · exact ⟨d, .refl, hi⟩

include hjumps

/-- Once the blocks are settled, a store of a block leaves all blocks at the end of a path. -/
theorem has_val_of_path {sol : Solution (InstrSet p.instrs.size)}
    (hsettled : ∀ b ∈ p.blockRefs f,
      sol.Settled (reachingStores _ read) p f (genSet _ p) (killed _ p) b)
    {c d : BlockRef} (hcd : ReflTransGen (p.Edge f) c d) (hd : d ∈ p.blockRefs f) {i : InstrId}
    (hi : i ∈ storesOf p c) : (sol.outs.val d).has i = true := by
  have hleave : ∀ b ∈ p.blockRefs f, ∀ j,
      (entering (reachingStores _ read) (.taken p f) sol.outs b).has j = true ∨
        j ∈ storesOf p b ∧ j < p.instrs.size → (sol.outs.val b).has j = true := by
    intro b hb j hj
    rw [BlockMap.val_of_get? (hsettled b hb).outs]
    exact (has_transferStores_killed hstores hb _ j).mpr hj
  -- Along the path, from its start on.
  induction hcd with
  | refl => exact hleave c hd i (.inr ⟨hi, lt_size_of_mem_storesOf hi⟩)
  | tail _ hedge ih =>
    have hsteady : (reachingStores p.instrs.size read).Steady p f _ _ _ :=
      steady_reachingStores hstores
    refine hleave _ hd i (.inl ?_)
    exact hsteady.val_le_entering hjumps sol.outs hd hedge.1 hedge.2 i (ih hedge.1)

end Paths

end Flow

open Relation Flow in
/-- **The stores that reach the blocks of a function.**  If its jumps stay within it and its stores
have their operands, the solver ends without a fault, and what it finds is told by the paths between
the blocks. -/
theorem solveReachingStores_exact {σ : Type} {p : Program} {f : FuncId} {read : σ → Program}
    {onChange : BlockRef → InstrSet p.instrs.size → Act σ Unit} {s : σ}
    (hjumps : p.JumpsWithin f)
    (hstores : ∀ i ∈ p.funcInstrs f, (p.instr i).op = .store → (p.instr i).operands.length = 2)
    (hquiet : ∀ b out t, read t = p → (onChange b out).Succeeds t fun _ u => read u = p)
    (hs : read s = p) :
    ∃ sol t, solveReachingStores p f read onChange s = (.ok sol, t) ∧ read t = p ∧
      ∀ b ∈ p.blockRefs f, ∃ inn gen kill out,
        sol.ins.get? b = some inn ∧ sol.gens.get? b = some gen ∧
        sol.kills.get? b = some kill ∧ sol.outs.get? b = some out ∧
        (∀ i, i ∈ gen ↔ i ∈ storesOf p b) ∧ (∀ i, i ∈ kill → i ∈ gen) ∧
        (∀ i, i ∈ out ↔ ∃ c, ReflTransGen (p.Edge f) c b ∧ i ∈ storesOf p c) ∧
        (∀ i, i ∈ inn ↔ ∃ c, TransGen (p.Edge f) c b ∧ i ∈ storesOf p c) := by
  have hown : ∀ b ∈ p.blockRefs f, ∀ i ∈ storesOf p b, (p.instr i).operands.length = 2 := by
    intro b hb i hi
    obtain ⟨rfl, -⟩ := Program.mem_blockRefs.mp hb
    obtain ⟨hi, hop⟩ := mem_storesOf.mp hi
    exact hstores i (Program.mem_funcInstrs.mpr ⟨b.index, hi⟩) hop
  obtain ⟨sol, t, hrun, ht, hsettled, hleast⟩ :=
    (succeeds_solve (steady_reachingStores hown) hjumps hquiet hs).exists_eq
  have hout : ∀ d ∈ p.blockRefs f, ∀ i, (sol.outs.val d).has i = true ↔
      ∃ c, ReflTransGen (p.Edge f) c d ∧ i ∈ storesOf p c := by
    intro d hd i
    constructor
    · intro hi
      exact has_storesAlong.mp (hleast _ _ (closed_storesAlong hown) d hd i hi)
    · rintro ⟨c, hcd, hi⟩
      exact has_val_of_path hjumps hown hsettled hcd hd hi
  refine ⟨sol, t, hrun, ht, fun b hb => ?_⟩
  have hb' := hsettled b hb
  refine ⟨_, _, _, _, hb'.ins, hb'.gens, hb'.kills, hb'.outs, fun i => ?_, fun i hi => ?_,
    fun i => ?_, fun i => ?_⟩
  · rw [BitSet.mem_iff, genSet, BitSet.has_ofList]
    exact and_iff_left_of_imp lt_size_of_mem_storesOf
  · exact (killSet_eq_killed hown hb).2 i hi
  · rw [BitSet.mem_iff, ← BlockMap.val_of_get? hb'.outs]
    exact hout b hb i
  · -- What enters has left a predecessor, so the path has a last jump.
    rw [BitSet.mem_iff, has_entering]
    constructor
    · rintro ⟨d, hd, hi⟩
      obtain ⟨hd, hdb⟩ := (Graph.mem_predecessors_taken hjumps hb).mp hd
      obtain ⟨c, hcd, hi⟩ := (hout d hd i).mp hi
      exact ⟨c, TransGen.tail' hcd ⟨hd, hdb⟩, hi⟩
    · rintro ⟨c, hcb, hi⟩
      obtain ⟨d, hcd, hdb⟩ := TransGen.tail'_iff.mp hcb
      exact ⟨d, (Graph.mem_predecessors_taken hjumps hb).mpr hdb,
        (hout d hdb.1 i).mpr ⟨c, hcd, hi⟩⟩

/-- A function with a loop of one block and a block that nothing jumps to. -/
def looped : ByteArray :=
  ("func @f(%p: ptr) \x7b\nentry:\n    store i32 1, %p\n    br loop\n" ++
    "loop:\n    store i32 2, %p\n    condbr 1, loop, exit\nexit:\n    ret void\n" ++
    "dead:\n    store i32 3, %p\n    store i32 4, %p\n    br exit\n\x7d\n").toUTF8

open Flow in
/-- The store of the loop enters the loop again, and those of the block that nothing jumps to reach
the exit although they are removed where they stand. -/
theorem solveReachingStores_exact_looped : ∃ p, Program.parse "m" looped = .ok p ∧
    ∃ sol t, solveReachingStores p 0 id (fun _ _ => pure ()) p = (.ok sol, t) ∧
      (∃ inn, sol.ins.get? ⟨0, 1⟩ = some inn ∧ 2 ∈ inn) ∧
      ∃ out, sol.outs.get? ⟨0, 2⟩ = some out ∧ 2 ∈ out ∧ 5 ∈ out := by
  obtain ⟨p, hp, hfacts⟩ : ∃ p, Program.parse "m" looped = .ok p ∧
      ((p.func 0).blocks.size == 4 && p.successors ⟨0, 1⟩ == [⟨0, 1⟩, ⟨0, 2⟩] &&
        p.successors ⟨0, 3⟩ == [⟨0, 2⟩] && storesOf p ⟨0, 1⟩ == [2] &&
        storesOf p ⟨0, 3⟩ == [5, 6]) = true :=
    Program.exists_of_parse (by decide +kernel)
  simp only [Bool.and_eq_true, beq_iff_eq] at hfacts
  obtain ⟨⟨⟨⟨hsize, hloop⟩, hdead⟩, hstore⟩, hstores⟩ := hfacts
  have hwf := (Program.wellFormed_of_parse hp).1
  have hblock : ∀ k < 4, ⟨0, k⟩ ∈ p.blockRefs 0 := by
    intro k hk
    exact Program.mem_blockRefs.mpr ⟨rfl, hsize ▸ hk⟩
  have hedge : p.Edge 0 ⟨0, 1⟩ ⟨0, 1⟩ ∧ p.Edge 0 ⟨0, 1⟩ ⟨0, 2⟩ ∧ p.Edge 0 ⟨0, 3⟩ ⟨0, 2⟩ := by
    refine ⟨⟨hblock 1 (by omega), ?_⟩, ⟨hblock 1 (by omega), ?_⟩, ⟨hblock 3 (by omega), ?_⟩⟩
    · simp [hloop]
    · simp [hloop]
    · simp [hdead]
  obtain ⟨sol, t, hrun, -, hsets⟩ := @solveReachingStores_exact Program p 0 id
    (fun _ _ => pure ()) p (hwf.jumpsWithin 0)
    (fun i hi hop => by
      obtain ⟨b, hb, -⟩ := hwf.mem_funcInstrs.mp hi
      exact hwf.stores i b hb hop)
    (fun _ _ _ ht => ht) rfl
  refine ⟨p, hp, sol, t, hrun, ?_, ?_⟩
  · obtain ⟨inn, _, _, _, hinn, -, -, -, -, -, -, hmem⟩ := hsets _ (hblock 1 (by omega))
    exact ⟨inn, hinn, (hmem 2).mpr ⟨_, .single hedge.1, by simp [hstore]⟩⟩
  · obtain ⟨_, _, _, out, -, -, -, hout, -, -, hmem, -⟩ := hsets _ (hblock 2 (by omega))
    refine ⟨out, hout, (hmem 2).mpr ⟨_, .single hedge.2.1, by simp [hstore]⟩, ?_⟩
    exact (hmem 5).mpr ⟨_, .single hedge.2.2, by simp [hstores]⟩

end Midend
