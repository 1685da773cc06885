import Midend.Proofs.Flow.SolverEffort

/-!
# Propagation and the analysis that drives it

The propagation of constants rewrites a program while the solver for reaching stores is at work on it.
This does not disturb the solver: it takes the same rounds and makes the same reports as on a program that
nobody edits.  The rewriting puts values into operand slots, and the only thing in which the solver depends
on operands is what a block removes; that is added back.

The two runs are compared round by round.  What every round of the rewriting run keeps is that the
undisturbed run, continued from the same sets, the same stack and the same reports, ends as it does from
the start.

## Main definitions

* `Program.Overwrites`: a program differs from another one by values in operand slots.
* `Program.StoresAddressed`: the stores of a function have two operands.

## Main results

* `overwrites_propagateBlock`: the propagation in a block overwrites operands.
* `InStep.visit`: one round of both runs.
* `solveReachingStores_undisturbed`: the two runs.
-/

namespace Midend

namespace Program

/-! ### Overwriting operands -/

/-- The programs are the same but for values in operand slots, and no slot has become empty. -/
structure Overwrites (p q : Program) : Prop where
  same : SameButOperands p q
  length : ∀ i, (q.instr i).operands.length = (p.instr i).operands.length
  filled : ∀ i (k : Nat) v, (p.instr i).operands[k]? = some (some v) →
    ∃ w, (q.instr i).operands[k]? = some (some w)

variable {p q r : Program}

theorem Overwrites.refl (p : Program) : p.Overwrites p :=
  ⟨.refl p, fun _ => rfl, fun _ _ v hv => ⟨v, hv⟩⟩

theorem Overwrites.trans (h : p.Overwrites q) (h' : q.Overwrites r) : p.Overwrites r := by
  refine ⟨h.same.trans h'.same, fun i => (h'.length i).trans (h.length i), fun i k v hv => ?_⟩
  obtain ⟨w, hw⟩ := h.filled i k v hv
  exact h'.filled i k w hw

/-- Whatever the use-lists say, moving them overwrites operands. -/
theorem overwrites_redirect (p : Program) (old new : Value) : p.Overwrites (p.redirect old new) := by
  refine ⟨sameButOperands_redirect p old new, length_operands_redirect p old new, fun i k v hv => ?_⟩
  unfold redirect
  split
  · exact ⟨v, hv⟩
  · have hinstr : ({ p with uses := p.uses.set old [] } : Program).instr i = p.instr i := rfl
    rw [instr_moveSlots, hinstr, List.getElem?_mapIdx, hv, Option.map_some]
    split
    · exact ⟨new, rfl⟩
    · exact ⟨v, rfl⟩

/-- The stores of a function have two operands, and the address is not missing. -/
def StoresAddressed (p : Program) (f : FuncId) : Prop :=
  ∀ i ∈ p.funcInstrs f, (p.instr i).op = .store → ∃ v a, (p.instr i).operands = [v, some a]

theorem StoresAddressed.overwrites {f : FuncId} (h : p.StoresAddressed f) (hpq : p.Overwrites q) :
    q.StoresAddressed f := by
  intro i hi hop
  unfold funcInstrs at hi
  rw [func_congr hpq.same.funcs] at hi
  rw [hpq.same.op] at hop
  obtain ⟨v, a, hops⟩ := h i hi hop
  obtain ⟨a', ha'⟩ := hpq.filled i 1 a (by rw [hops]; rfl)
  have hlength : (q.instr i).operands.length = 2 := by
    rw [hpq.length, hops]
    rfl
  obtain ⟨v', y, hops'⟩ : ∃ v' y, (q.instr i).operands = [v', y] :=
    ⟨_, _, List.eq_getElem_of_length_eq_two _ hlength⟩
  rw [hops'] at ha'
  exact ⟨v', a', by rw [hops', Option.some.inj ha']⟩

theorem StoresAddressed.of_mem_block {b : BlockRef} (h : p.StoresAddressed b.func) {i : InstrId}
    (hi : i ∈ (p.block b).instrs) (hop : (p.instr i).op = .store) :
    ∃ v a, (p.instr i).operands = [v, some a] :=
  h i (mem_funcInstrs.mpr ⟨b.index, hi⟩) hop

theorem StoresAddressed.length {b : BlockRef} (h : p.StoresAddressed b.func) {i : InstrId}
    (hi : i ∈ Flow.storesOf p b) : (p.instr i).operands.length = 2 := by
  obtain ⟨hi, hop⟩ := Flow.mem_storesOf.mp hi
  obtain ⟨v, a, hops⟩ := h.of_mem_block hi hop
  rw [hops]
  rfl

theorem StoresAddressed.length_of_mem_blockRefs {f : FuncId} (h : p.StoresAddressed f) :
    ∀ b ∈ p.blockRefs f, ∀ i ∈ Flow.storesOf p b, (p.instr i).operands.length = 2 := by
  intro b hb i hi
  obtain ⟨rfl, -⟩ := mem_blockRefs.mp hb
  exact h.length hi

end Program

/-! ### Propagation in any program -/

section Propagate

variable {n : Nat} {out : Flow.InstrSet n} {s : Session}

theorem overwrites_propagateInstr (b : BlockRef) {i : InstrId}
    (hi : (s.program.instr i).op = .store → ∃ v a, (s.program.instr i).operands = [v, some a]) :
    (propagateInstr b out i).Succeeds s fun _ t => s.program.Overwrites t.program := by
  by_cases hop : (s.program.instr i).op = .store
  · obtain ⟨v, a, hops⟩ := hi hop
    refine propagateInstr_store b hop ((propagateStore_cases b hop hops).mono fun _ t ht => ?_)
    rcases ht with ⟨rfl, -⟩ | ⟨c, -, hprogram, -⟩
    · exact .refl _
    · rw [hprogram]
      exact Program.overwrites_redirect _ a (.const c)
  · refine (propagateInstr_cases b hop).mono fun _ t ht => ?_
    rcases ht with rfl | ⟨d, -, hprogram⟩
    · exact .refl _
    · rw [hprogram]
      exact Program.overwrites_redirect _ _ _

theorem overwrites_propagateInstrs (b : BlockRef) (l : List InstrId) (s : Session)
    (hs : s.program.StoresAddressed b.func) (hl : ∀ i ∈ l, i ∈ (s.program.block b).instrs) :
    (propagateInstrs b out l).Succeeds s fun _ t => s.program.Overwrites t.program := by
  induction l generalizing s with
  | nil => exact .refl s.program
  | cons i rest ih =>
    rw [List.forall_mem_cons] at hl
    rw [propagateInstrs, Act.Succeeds, Act.ensures_bind]
    refine (overwrites_propagateInstr b (hs.of_mem_block hl.1)).mono fun _ t ht => ?_
    refine (ih t (hs.overwrites ht) fun j hj => ?_).mono fun _ _ hu => ht.trans hu
    rw [Program.block_congr ht.same.funcs]
    exact hl.2 j hj

/-- **Propagating through a block** overwrites operands, whichever stores leave it. -/
theorem overwrites_propagateBlock (b : BlockRef) (hs : s.program.StoresAddressed b.func) :
    (propagateBlock b out).Succeeds s fun _ t => s.program.Overwrites t.program := by
  unfold propagateBlock
  rw [Act.Succeeds, Act.ensures_bind, Pass.ensures_program]
  exact overwrites_propagateInstrs b _ s hs fun _ hi => hi

end Propagate

/-! ### Two runs -/

theorem Flow.Graph.ofFunc_congr {p q : Program} (h : Program.SameButOperands p q) (f : FuncId) :
    (ofFunc q f : Except Fault (Graph EdgeList)) = ofFunc p f ∧ q.blockRefs f = p.blockRefs f := by
  have hsuccessors : q.successors = p.successors := funext h.successors
  have hblocks : q.blockRefs f = p.blockRefs f := by
    unfold Program.blockRefs
    rw [Program.func_congr h.funcs]
  unfold ofFunc jumps
  rw [hsuccessors, hblocks]
  exact ⟨rfl, rfl⟩

namespace Flow

/-- What is removed makes no difference if it is added back. -/
theorem transferStores_congr {n : Nat} {gen kill kill' : InstrSet n}
    (h : ∀ i, kill.has i = true → gen.has i = true) (h' : ∀ i, kill'.has i = true → gen.has i = true)
    (inn : InstrSet n) : transferStores inn gen kill = transferStores inn gen kill' := by
  refine BitSet.ext_has fun i => Bool.eq_iff_iff.mpr ?_
  rw [has_transferStores h, has_transferStores h']

/-- The undisturbed run beside its record, from some sets and a stack on. -/
def solveUndisturbed (p : Program) (f : FuncId) (sol : Solution (InstrSet p.instrs.size))
    (stack : List BlockRef) :
    Act (Program × Reports (InstrSet p.instrs.size)) (Solution (InstrSet p.instrs.size)) :=
  solveFrom (reachingStores p.instrs.size id).recorded p (.taken p f) (recording fun _ _ => pure ())
    sol stack

/-- The rewriting run has come to sets, a stack and reports from which the undisturbed run ends in
`done`, whatever is noted there of what blocks remove. -/
structure InStep (p : Program) (f : FuncId) (done : Solution (InstrSet p.instrs.size))
    (reports : Reports (InstrSet p.instrs.size)) (sol : Solution (InstrSet p.instrs.size))
    (stack : List BlockRef) (t : Session × Reports (InstrSet p.instrs.size)) : Prop where
  /-- The program differs from the original in its operands. -/
  overwrites : p.Overwrites t.1.program
  /-- The blocks on the stack are blocks of the function. -/
  within : ∀ b ∈ stack, b ∈ p.blockRefs f
  /-- It is known from the start which blocks cannot be reached. -/
  unreachable : sol.unreachable = (Graph.taken p f).unreachable p
  /-- The undisturbed run can go on from here. -/
  rest : ∃ kills, solveUndisturbed p f { sol with kills := kills } stack (p, t.2) =
    (.ok done, (p, reports))

section Visit

variable {p : Program} {f : FuncId} {done sol : Solution (InstrSet p.instrs.size)}
  {reports l : Reports (InstrSet p.instrs.size)} {b : BlockRef} {stack : List BlockRef} {t : Session}
  {old kill : InstrSet p.instrs.size}

/-- **One round of both runs.**  The sets the undisturbed run finds are those of the rewriting run, since
what the block removes is added back. -/
theorem InStep.visit (h : InStep p f done reports sol (b :: stack) (t, l)) (hjumps : p.JumpsWithin f)
    (hstores : p.StoresAddressed f) (hold : sol.outs.get? b = some old)
    (hkill : ∀ i, kill.has i = true → (genSet p.instrs.size p b).has i = true) :
    let prob := reachingStores p.instrs.size Session.program
    let inn := entering prob (.taken p f) sol.outs b
    let gen := genSet p.instrs.size p b
    let out := transferStores inn gen kill
    (prob.equal out old = true → InStep p f done reports (sol.revisited b inn gen kill) stack (t, l)) ∧
    (prob.equal out old = false → prob.includes out old = true → ∀ u : Session,
      p.Overwrites u.program → InStep p f done reports (sol.changed b inn gen kill out)
        ((p.successors b).reverse ++ stack) (u, l ++ [(b, out)])) ∧
    (prob.equal out old = false → prob.includes out old = true) := by
  intro prob inn gen out
  have hb : b ∈ p.blockRefs f := h.within b List.mem_cons_self
  have hrest : ∀ c ∈ stack, c ∈ p.blockRefs f := fun c hc => h.within c (List.mem_cons_of_mem b hc)
  obtain ⟨kills, hrun⟩ := h.rest
  -- What the undisturbed run finds in this round.
  obtain ⟨kill', hkillRun, hkill'⟩ : ∃ kill', (reachingStores p.instrs.size id).kill b gen p =
      (.ok kill', p) ∧ ∀ i, kill'.has i = true → gen.has i = true := by
    obtain ⟨rfl, -⟩ := Program.mem_blockRefs.mp hb
    exact exists_kill_run (.refl p) (fun i hi => hstores.length hi) gen
  have hgenRun : (reachingStores p.instrs.size id).recorded.gen b (p, l) = (.ok gen, (p, l)) := rfl
  have hout : transferStores inn gen kill' = out := transferStores_congr hkill' hkill inn
  have hround : (if prob.equal out old = true then
        solveUndisturbed p f { sol.revisited b inn gen kill with kills := kills.set b kill' } stack
      else if prob.includes out old = true then do
        recording (fun _ _ => pure ()) b out
        solveUndisturbed p f { sol.changed b inn gen kill out with kills := kills.set b kill' }
          (((← get).1.successors b).reverse ++ stack)
      else throw (.shrinking (p.block b).name)) (p, l) = (.ok done, (p, reports)) := by
    have hold' : ({ sol with kills := kills } : Solution _).outs.get? b = some old := hold
    rw [solveUndisturbed, solveFrom_cons, visitTop_run hold' hgenRun (Problem.recorded_kill hkillRun l)] at hrun
    rw [← hout]
    exact hrun
  refine ⟨fun heq => ?_, fun hne hinc u hu => ?_, fun hne => ?_⟩
  · rw [if_pos heq] at hround
    exact ⟨h.overwrites, hrest, h.unreachable, kills.set b kill', hround⟩
  · rw [if_neg (Bool.eq_false_iff.mp hne), if_pos hinc] at hround
    refine ⟨hu, fun c hc => ?_, h.unreachable, kills.set b kill', hround⟩
    rcases List.mem_append.mp hc with hc | hc
    · exact hjumps b hb c (List.mem_reverse.mp hc)
    · exact hrest c hc
  · -- Else the undisturbed run would end in a fault.
    by_contra hinc
    rw [if_neg (Bool.eq_false_iff.mp hne), if_neg hinc] at hround
    cases hround

end Visit

section Run

variable {p : Program} {f : FuncId} (hjumps : p.JumpsWithin f) (hstores : p.StoresAddressed f)

include hjumps hstores

/-- The undisturbed run ends without a fault. -/
theorem exists_undisturbed : ∃ sol reports,
    solveReachingStores p f id (fun _ _ => pure ()) p = (.ok sol, p) ∧
    solveRecorded (reachingStores p.instrs.size id) p f (fun _ _ => pure ()) (p, []) =
      (.ok sol, (p, reports)) := by
  have hsteady : (reachingStores p.instrs.size id).Steady p f (fun q => q = p) _ _ :=
    steady_reachingStores hstores.length_of_mem_blockRefs
  have hquiet : ∀ (b : BlockRef) (out : InstrSet p.instrs.size) (q : Program), q = p →
      (pure () : Act Program Unit).Succeeds q fun _ q' => q' = p := fun _ _ _ hq => hq
  obtain ⟨sol, q, hrun, hq, -⟩ := (succeeds_solve hsteady hjumps hquiet rfl).exists_eq
  rw [hq] at hrun
  have hextends := extends_solveRecorded (reachingStores p.instrs.size id) p (fun _ _ => pure ()) f
    (p, [])
  rw [hrun] at hextends
  obtain ⟨hsol, hprogram⟩ := Prod.mk.inj hextends
  exact ⟨sol, _, hrun, Prod.ext hsol.symm (Prod.ext hprogram.symm rfl)⟩

/-- **All rounds of both runs.** -/
theorem succeeds_inStep {done : Solution (InstrSet p.instrs.size)}
    {reports : Reports (InstrSet p.instrs.size)}
    (hdone : solveRecorded (reachingStores p.instrs.size id) p f (fun _ _ => pure ()) (p, []) =
      (.ok done, (p, reports))) {s : Session} (hs : s.program = p) :
    (solveRecorded (reachingStores p.instrs.size Session.program) p f propagateBlock).Succeeds (s, [])
      fun sol t => InStep p f done reports sol [] t := by
  unfold solveRecorded solve at hdone ⊢
  rw [Graph.ofFunc_eq hjumps] at hdone ⊢
  rw [Act.Succeeds, Act.ensures_bind, Act.ensures_ofExcept_ok]
  refine ensures_solveFrom _ p (.taken p f) (recording propagateBlock) (InStep p f done reports) ?_ ?_
    _ _ (s, []) ⟨hs ▸ .refl p, fun b => List.mem_reverse.mp, rfl, _, hdone⟩
  · intro sol b stack t hnone h
    obtain ⟨kills, hrun⟩ := h.rest
    refine ⟨h.overwrites, fun c hc => h.within c (List.mem_cons_of_mem b hc), h.unreachable, kills, ?_⟩
    simp only [solveUndisturbed, solveFrom_cons, visitTop, hnone] at hrun
    exact hrun
  · rintro sol b stack ⟨t, l⟩ old hold h
    have hb := h.within b List.mem_cons_self
    obtain ⟨rfl, -⟩ := Program.mem_blockRefs.mp hb
    have hstores' := hstores.overwrites h.overwrites
    have hgenRun : (reachingStores p.instrs.size Session.program).gen b t =
        (.ok (genSet p.instrs.size p b), t) := gen_run h.overwrites.same b
    -- The stores of the block still have their addresses.
    obtain ⟨kill, hkillRun, hkill⟩ := exists_kill_run h.overwrites.same
      (fun i hi => hstores'.length hi) (genSet p.instrs.size p b)
    obtain ⟨hsame, hgrown, hinc⟩ := h.visit hjumps hstores hold hkill
    rw [Act.ensures_of_run (Problem.recorded_gen hgenRun l),
      Act.ensures_of_run (Problem.recorded_kill hkillRun l)]
    refine ⟨hsame, fun hne hinc => ?_, fun hne hshrunk => ?_⟩
    · obtain ⟨_, u, hrun, hu⟩ := (overwrites_propagateBlock b hstores').exists_eq
      refine (Act.ensures_of_run (Act.beside_run hrun _)).mpr ?_
      have hover := h.overwrites.trans hu
      change InStep p _ done reports _ ((u.program.successors b).reverse ++ stack) _
      rw [hover.same.successors b]
      exact hgrown hne hinc u hover
    · exact absurd (hinc hne) (Bool.eq_false_iff.mp hshrunk)

end Run

end Flow

open Flow in
/-- **Propagation does not disturb the analysis that drives it,** for any function whose jumps stay within
it and whose stores have two operands, in any program.  The solver ends without a fault, makes the same
reports in the same order and finds the same sets in as many rounds as on a program that nobody edits;
only what blocks remove may differ.  Nor does the rewriting change which blocks can be reached. -/
theorem solveReachingStores_undisturbed {s : Session} {f : FuncId}
    (hjumps : s.program.JumpsWithin f) (hstores : s.program.StoresAddressed f) :
    ∃ sol sol₀ t reports,
      solveReachingStores s.program f Session.program propagateBlock s = (.ok sol, t) ∧
      solveReachingStores s.program f id (fun _ _ => pure ()) s.program = (.ok sol₀, s.program) ∧
      solveRecorded (reachingStores s.program.instrs.size Session.program) s.program f propagateBlock
        (s, []) = (.ok sol, (t, reports)) ∧
      solveRecorded (reachingStores s.program.instrs.size id) s.program f (fun _ _ => pure ())
        (s.program, []) = (.ok sol₀, (s.program, reports)) ∧
      sol.ins = sol₀.ins ∧ sol.outs = sol₀.outs ∧ sol.gens = sol₀.gens ∧ sol.pops = sol₀.pops ∧
      sol.changes = sol₀.changes ∧ sol.unreachable = sol₀.unreachable ∧
      ∃ g : Graph EdgeList, Graph.ofFunc s.program f = .ok g ∧ Graph.ofFunc t.program f = .ok g ∧
        sol.unreachable = g.unreachable s.program ∧
        g.unreachable t.program = g.unreachable s.program := by
  obtain ⟨sol₀, reports, hrun₀, hrecorded₀⟩ := exists_undisturbed hjumps hstores
  obtain ⟨sol, ⟨t, l⟩, hrecorded, h⟩ := (succeeds_inStep hjumps hstores hrecorded₀ rfl).exists_eq
  -- With an empty stack the undisturbed run ends at once.
  obtain ⟨kills, hrest⟩ := h.rest
  rw [solveUndisturbed, solveFrom] at hrest
  obtain ⟨hsol, hstate⟩ := Prod.mk.inj hrest
  obtain rfl := Except.ok.inj hsol
  obtain rfl := (Prod.mk.inj hstate).2
  obtain ⟨hgraph, hblocks⟩ := Graph.ofFunc_congr h.overwrites.same f
  have htaken := Graph.ofFunc_eq hjumps
  refine ⟨sol, _, t, l, ?_, hrun₀, hrecorded, hrecorded₀, rfl, rfl, rfl, rfl, rfl, rfl,
    .taken s.program f, htaken, hgraph.trans htaken, h.unreachable, ?_⟩
  · exact (extends_solveRecorded _ _ _ f).run hrecorded
  · obtain ⟨g, hg, hrecords⟩ := Graph.exists_ofFunc (G := EdgeList) hjumps
    obtain rfl := Except.ok.inj (hg.symm.trans htaken)
    unfold Graph.unreachable
    rw [hrecords.func, hblocks]

/-- A loop of one block.  Its first store makes the second one store a constant, and both get the same
address. -/
def selfLoop : ByteArray :=
  ("func @f(%p: ptr, %q: ptr) \x7b\nloop:\n    store i32 1, %p\n    store ptr %p, %q\n    br loop\n" ++
    "\x7d\n").toUTF8

open Flow in
/-- At its second visit the loop removes both stores, which it does not on the untouched program.  They
leave it all the same. -/
theorem solveReachingStores_undisturbed_selfLoop : ∃ p, Program.parse "m" selfLoop = .ok p ∧
    ∃ sol sol₀ t, solveReachingStores p 0 Session.program propagateBlock { program := p } = (.ok sol, t) ∧
      solveReachingStores p 0 id (fun _ _ => pure ()) p = (.ok sol₀, p) ∧
      sol.outs = sol₀.outs ∧ sol.pops = sol₀.pops ∧ sol₀.pops = 2 ∧ sol.kills ≠ sol₀.kills := by
  obtain ⟨p, hp, hfacts⟩ : ∃ p, Program.parse "m" selfLoop = .ok p ∧
      (((solveInRounds (reachingStores p.instrs.size Session.program) p 0 propagateBlock 4
          { program := p }).1.toOption.map fun sol => (sol.kills.get? ⟨0, 0⟩).map BitSet.toList) ==
            some (some [0, 1]) &&
        ((solveInRounds (reachingStores p.instrs.size id) p 0 (fun _ _ => pure ()) 4
          p).1.toOption.map fun sol => (sol.pops, (sol.kills.get? ⟨0, 0⟩).map BitSet.toList)) ==
            some (2, some [])) = true :=
    Program.exists_of_parse (by decide +kernel)
  simp only [Bool.and_eq_true, beq_iff_eq] at hfacts
  obtain ⟨hkills, hkills₀⟩ := hfacts
  have hwf := (Program.wellFormed_of_parse hp).1
  have hjumps := hwf.jumpsWithin 0
  obtain ⟨sol, sol₀, t, l, hrun, hrun₀, -, -, -, houts, -, hpops, -⟩ :=
    @solveReachingStores_undisturbed { program := p } 0 hjumps fun i hi hop => by
      obtain ⟨b, hb, -⟩ := hwf.mem_funcInstrs.mp hi
      exact hwf.exists_address hb hop
  have hboth := of_solveInRounds hrun hkills
  have hquiet := of_solveInRounds hrun₀ hkills₀
  obtain ⟨hpops₀, hnone⟩ := Prod.mk.inj hquiet
  refine ⟨p, hp, sol, sol₀, t, hrun, hrun₀, houts, hpops, hpops₀, fun hsame => ?_⟩
  rw [hsame] at hboth
  exact absurd (hboth.symm.trans hnone) (by decide)

end Midend
