import Midend.Proofs.Pass.ConstPropFixed

/-!
# Stores of constants collapse

The propagation puts a stored constant for the address that it is stored at.  The store has that address
as an operand, so it has the constant twice from then on.  What is rewritten later keeps this, though it may
put another constant for both: a value is put for another one wherever that occurs, and the value that is
put for a constant is a constant.  So it makes no difference in which order the blocks are visited, how
often, and which stores are said to leave them.

What is left to show is that the solver reports every block with a store.  Its reports account for the sets
that leave the blocks at the end, and a store of a block leaves it.

## Main definitions

* `Instr.StoresConst`, `Instr.Collapsed`: a store of a constant, and one that has the constant twice.
* `Program.Collapses`: a step in which the given stores collapse.
* `propagateAll`: the propagation along any visits.

## Main results

* `Program.Collapses.append`: one step after another.
* `collapses_propagateInstr`, `collapses_propagateAll`: one instruction, and all visits.
* `constProp_collapses`: the pass.
-/

namespace Midend

/-! ### Substitution in stores -/

namespace Instr

/-- The instruction stores a constant. -/
def StoresConst (x : Instr) : Prop :=
  x.op = .store ∧ ∃ c a, x.operands = [some (.const c), some a]

/-- The instruction stores a constant, and has it as the address as well. -/
def Collapsed (x : Instr) : Prop :=
  x.op = .store ∧ ∃ c, x.operands = [some (.const c), some (.const c)]

variable {x : Instr} {old new : Value}

section Substitute

variable (hnew : ∀ c, old = .const c → ∃ d, new = .const d)

include hnew

theorem exists_substituteIn_const (c : ConstId) :
    ∃ d, substituteIn old new (some (.const c)) = some (.const d) := by
  unfold substituteIn
  split
  · next hold =>
    obtain ⟨d, rfl⟩ := hnew c (Option.some.inj hold).symm
    exact ⟨d, rfl⟩
  · exact ⟨c, rfl⟩

theorem StoresConst.substitute (h : x.StoresConst) : (x.substitute old new).StoresConst := by
  obtain ⟨hop, c, a, hops⟩ := h
  obtain ⟨d, hd⟩ := exists_substituteIn_const hnew c
  have haddress : ∃ w, substituteIn old new (some a) = some w := by
    unfold substituteIn
    split
    · exact ⟨new, rfl⟩
    · exact ⟨a, rfl⟩
  obtain ⟨w, hw⟩ := haddress
  refine ⟨hop, d, w, ?_⟩
  rw [Instr.substitute, hops, List.map_cons, List.map_cons, hd, hw, List.map_nil]

/-- The two operands are treated alike. -/
theorem Collapsed.substitute (h : x.Collapsed) : (x.substitute old new).Collapsed := by
  obtain ⟨hop, c, hops⟩ := h
  obtain ⟨d, hd⟩ := exists_substituteIn_const hnew c
  refine ⟨hop, d, ?_⟩
  rw [Instr.substitute, hops, List.map_cons, List.map_cons, hd, List.map_nil]

end Substitute

/-- A store collapses if its constant is put for its address. -/
theorem collapsed_substitute_address {c : ConstId} {a : Value} (hop : x.op = .store)
    (hops : x.operands = [some (.const c), some a]) : (x.substitute a (.const c)).Collapsed := by
  have hconst : substituteIn a (.const c) (some (.const c)) = some (.const c) := by
    unfold substituteIn
    split <;> rfl
  refine ⟨hop, c, ?_⟩
  rw [Instr.substitute, hops, List.map_cons, List.map_cons, hconst, substituteIn, if_pos rfl,
    List.map_nil]

end Instr

/-! ### Steps in which stores collapse -/

namespace Program

variable {p q r : Program}

/-- From one program to another by overwriting operands, where use-lists stay exact, stores of constants
stay such stores and collapsed ones stay collapsed.  Those of the given stores that store a constant
collapse. -/
structure Collapses (p q : Program) (l : List InstrId) : Prop where
  overwrites : p.Overwrites q
  exact : q.UsesExact
  storesConst : ∀ i, (p.instr i).StoresConst → (q.instr i).StoresConst
  collapsed : ∀ i, (p.instr i).Collapsed → (q.instr i).Collapsed
  collapses : ∀ i ∈ l, (p.instr i).StoresConst → (q.instr i).Collapsed

namespace Collapses

variable {l l' : List InstrId}

theorem refl (h : p.UsesExact) : p.Collapses p [] :=
  ⟨.refl p, h, fun _ => id, fun _ => id, fun _ hi => absurd hi List.not_mem_nil⟩

/-- **One step after another.** -/
theorem append (h : p.Collapses q l) (h' : q.Collapses r l') : p.Collapses r (l ++ l') := by
  refine ⟨h.overwrites.trans h'.overwrites, h'.exact, fun i hi => h'.storesConst i (h.storesConst i hi),
    fun i hi => h'.collapsed i (h.collapsed i hi), fun i hi hstores => ?_⟩
  rcases List.mem_append.mp hi with hi | hi
  · exact h'.collapsed i (h.collapses i hi hstores)
  · exact h'.collapses i hi (h.storesConst i hstores)

end Collapses

/-- Moving all uses of a value, where constants give way to constants only. -/
theorem UsesExact.collapses_redirect (h : p.UsesExact) {old new : Value}
    (hnew : ∀ c, old = .const c → ∃ d, new = .const d) : p.Collapses (p.redirect old new) [] := by
  refine ⟨p.overwrites_redirect old new, h.redirect old new, fun i hi => ?_, fun i hi => ?_,
    fun _ hi => absurd hi List.not_mem_nil⟩
  · rw [h.instr_redirect]
    exact hi.substitute hnew
  · rw [h.instr_redirect]
    exact hi.substitute hnew

end Program

/-! ### Propagation along any visits -/

section Propagate

variable {n : Nat} {out : Flow.InstrSet n} {s : Session}

theorem collapses_propagateStore (b : BlockRef) {i : InstrId} {v : Option Value} {a : Value}
    (hexact : s.program.UsesExact) (hop : (s.program.instr i).op = .store)
    (hops : (s.program.instr i).operands = [v, some a]) :
    (propagateStore b i).Succeeds s fun _ t => s.program.Collapses t.program [i] := by
  refine (propagateStore_cases b hop hops).mono fun _ t ht => ?_
  rcases ht with ⟨rfl, hsame⟩ | ⟨c, rfl, hprogram, -⟩
  · refine ⟨.refl _, hexact, fun _ => id, fun _ => id, fun j hj hstores => ?_⟩
    obtain rfl := List.mem_singleton.mp hj
    obtain ⟨-, c, a', hops'⟩ := hstores
    rw [hops] at hops'
    obtain ⟨rfl, -⟩ := List.cons.inj hops'
    rw [hsame c rfl] at hops
    exact ⟨hop, c, hops⟩
  · rw [hprogram]
    refine { hexact.collapses_redirect fun _ _ => ⟨c, rfl⟩ with collapses := fun j hj _ => ?_ }
    obtain rfl := List.mem_singleton.mp hj
    rw [hexact.instr_redirect]
    exact Instr.collapsed_substitute_address hop hops

/-- **One instruction.** -/
theorem collapses_propagateInstr (b : BlockRef) {i : InstrId} (hexact : s.program.UsesExact)
    (hi : (s.program.instr i).op = .store → ∃ v a, (s.program.instr i).operands = [v, some a]) :
    (propagateInstr b out i).Succeeds s fun _ t => s.program.Collapses t.program [i] := by
  by_cases hop : (s.program.instr i).op = .store
  · obtain ⟨v, a, hops⟩ := hi hop
    exact propagateInstr_store b hop (collapses_propagateStore b hexact hop hops)
  · have hother : ∀ {q}, s.program.Collapses q [] → s.program.Collapses q [i] := fun h =>
      { h with collapses := fun j hj hstores => absurd (List.mem_singleton.mp hj ▸ hstores.1) hop }
    refine (propagateInstr_cases b hop).mono fun _ t ht => hother ?_
    rcases ht with rfl | ⟨d, -, hprogram⟩
    · exact .refl hexact
    · rw [hprogram]
      exact hexact.collapses_redirect fun c hc => by cases hc

theorem collapses_propagateInstrs (b : BlockRef) (l : List InstrId) (s : Session)
    (hexact : s.program.UsesExact) (hs : s.program.StoresAddressed b.func)
    (hl : ∀ i ∈ l, i ∈ (s.program.block b).instrs) :
    (propagateInstrs b out l).Succeeds s fun _ t => s.program.Collapses t.program l := by
  induction l generalizing s with
  | nil => exact .refl hexact
  | cons i rest ih =>
    rw [List.forall_mem_cons] at hl
    rw [propagateInstrs, Act.Succeeds, Act.ensures_bind]
    refine (collapses_propagateInstr b hexact (hs.of_mem_block hl.1)).mono fun _ t ht => ?_
    refine (ih t ht.exact (hs.overwrites ht.overwrites) fun j hj => ?_).mono fun _ _ hu => ht.append hu
    rw [Program.block_congr ht.overwrites.same.funcs]
    exact hl.2 j hj

/-- One block, whichever stores leave it. -/
theorem collapses_propagateBlock (b : BlockRef) (hexact : s.program.UsesExact)
    (hs : s.program.StoresAddressed b.func) :
    (propagateBlock b out).Succeeds s fun _ t =>
      s.program.Collapses t.program (s.program.block b).instrs := by
  unfold propagateBlock
  rw [Act.Succeeds, Act.ensures_bind, Pass.ensures_program]
  exact collapses_propagateInstrs b _ s hexact hs fun _ hi => hi

/-- Propagates along visits: through blocks, one after the other, that the given stores are said to
leave. -/
def propagateAll : Flow.Reports (Flow.InstrSet n) → Pass Unit
  | [] => pure ()
  | r :: rest => do
    propagateBlock r.1 r.2
    propagateAll rest

/-- The instructions that visits pass. -/
def Program.passed (p : Program) (visits : Flow.Reports (Flow.InstrSet n)) : List InstrId :=
  visits.flatMap fun r => (p.block r.1).instrs

/-- **All visits.** -/
theorem collapses_propagateAll {f : FuncId} (visits : Flow.Reports (Flow.InstrSet n)) (s : Session)
    (hexact : s.program.UsesExact) (hs : s.program.StoresAddressed f)
    (hvisits : ∀ r ∈ visits, r.1.func = f) :
    (propagateAll visits).Succeeds s fun _ t =>
      s.program.Collapses t.program (s.program.passed visits) := by
  induction visits generalizing s with
  | nil => exact .refl hexact
  | cons r rest ih =>
    rw [List.forall_mem_cons] at hvisits
    rw [propagateAll, Act.Succeeds, Act.ensures_bind]
    refine (collapses_propagateBlock r.1 hexact (hvisits.1 ▸ hs)).mono fun _ t ht => ?_
    refine (ih t ht.exact (hs.overwrites ht.overwrites) hvisits.2).mono fun _ u hu => ?_
    have hpassed : t.program.passed rest = s.program.passed rest := by
      unfold Program.passed
      refine List.flatMap_congr fun r _ => ?_
      rw [Program.block_congr ht.overwrites.same.funcs]
    rw [hpassed] at hu
    exact ht.append hu

/-- A further visit. -/
theorem propagateAll_concat {l : Flow.Reports (Flow.InstrSet n)} {b : BlockRef} {s t u : Session}
    (hl : propagateAll l s = (.ok (), t)) (hb : propagateBlock b out t = (.ok (), u)) :
    propagateAll (l ++ [(b, out)]) s = (.ok (), u) := by
  induction l generalizing s with
  | nil =>
    obtain rfl : s = t := (Prod.mk.inj hl).2
    rw [List.nil_append, propagateAll, Act.bind_of_ok hb]
    rfl
  | cons r l ih =>
    rw [propagateAll] at hl
    rw [List.cons_append, propagateAll]
    rcases hr : propagateBlock r.1 r.2 s with ⟨e | _, s'⟩
    · rw [Act.bind_of_error hr] at hl
      cases hl
    · rw [Act.bind_of_ok hr] at hl ⊢
      exact ih hl

end Propagate

/-! ### The visits of the solver -/

namespace Flow

variable {p : Program} {f : FuncId} (hjumps : p.JumpsWithin f) (hstores : p.StoresAddressed f)

include hjumps hstores

/-- A store of a block is among those that leave it in the end. -/
theorem has_outs_of_mem_storesOf {done : Solution (InstrSet p.instrs.size)}
    (hdone : solveReachingStores p f id (fun _ _ => pure ()) p = (.ok done, p)) {b : BlockRef}
    (hb : b ∈ p.blockRefs f) {i : InstrId} (hi : i ∈ storesOf p b) :
    ∃ out, done.outs.get? b = some out ∧ out.has i = true := by
  have hlength := hstores.length_of_mem_blockRefs
  have hsteady : (reachingStores p.instrs.size id).Steady p f (fun q => q = p) _ _ :=
    steady_reachingStores hlength
  have hquiet : ∀ (b : BlockRef) (out : InstrSet p.instrs.size) (q : Program), q = p →
      (pure () : Act Program Unit).Succeeds q fun _ q' => q' = p := fun _ _ _ hq => hq
  obtain ⟨-, hsettled, -⟩ := (Act.ensures_of_run hdone).mp (succeeds_solve hsteady hjumps hquiet rfl)
  refine ⟨_, (hsettled b hb).outs, ?_⟩
  exact (has_transferStores_killed hlength hb _ i).mpr (.inr ⟨hi, lt_size_of_mem_storesOf hi⟩)

/-- **The solver visits every block with a store.**  What it makes of a session is the propagation along its
reports. -/
theorem exists_visits {s : Session} (hs : s.program = p) :
    ∃ sol t, ∃ visits : Reports (InstrSet p.instrs.size),
      solveReachingStores p f Session.program propagateBlock s = (.ok sol, t) ∧
      propagateAll visits s = (.ok (), t) ∧ (∀ r ∈ visits, r.1 ∈ p.blockRefs f) ∧
      ∀ b ∈ p.blockRefs f, storesOf p b ≠ [] → ∃ r ∈ visits, r.1 = b := by
  obtain ⟨done, reports, hdone, hrecorded⟩ := exists_undisturbed hjumps hstores
  have hord : (reachingStores p.instrs.size Session.program).Ordered :=
    ⟨fun _ _ => decide_eq_true_iff, fun _ _ => BitSet.subset_iff⟩
  have hruns : (reachingStores p.instrs.size Session.program).Runs p f propagateBlock
      fun t l => propagateAll l s = (.ok (), t) ∧ p.Overwrites t.program := by
    refine ⟨fun b _ t l ht => ht, fun b hb gen t l ht => ?_, fun b hb out t l ht => ?_,
      fun b _ t l ht => ht.2.same.successors b⟩
    · obtain ⟨rfl, -⟩ := Program.mem_blockRefs.mp hb
      have hstores' := hstores.overwrites ht.2
      obtain ⟨kill, hkill, -⟩ := exists_kill_run ht.2.same (fun i hi => hstores'.length hi) gen
      exact (Act.ensures_of_run hkill).mpr ht
    · obtain ⟨rfl, -⟩ := Program.mem_blockRefs.mp hb
      obtain ⟨_, u, hrun, hu⟩ := (overwrites_propagateBlock b (hstores.overwrites ht.2)).exists_eq
      exact (Act.ensures_of_run hrun).mpr ⟨propagateAll_concat ht.1 hrun, ht.2.trans hu⟩
  obtain ⟨sol, ⟨t, l⟩, hrun, h⟩ := (succeeds_inStep hjumps hstores hrecorded hs).exists_eq
  have htallied := ensures_solveRecorded hord hjumps hruns (s := s) ⟨rfl, hs ▸ .refl p⟩
  obtain ⟨⟨hvisits, -⟩, htallied⟩ := (Act.ensures_of_run hrun).mp htallied
  refine ⟨sol, t, l, (extends_solveRecorded _ _ _ f).run hrun, hvisits, htallied.about,
    fun b hb hne => ?_⟩
  -- With an empty stack the undisturbed run ends at once, so the sets are its sets.
  have houts : sol.outs = done.outs := by
    obtain ⟨kills, hrest⟩ := h.rest
    rw [solveUndisturbed, solveFrom] at hrest
    rw [← Except.ok.inj (Prod.mk.inj hrest).1]
  obtain ⟨i, hi⟩ := List.exists_mem_of_ne_nil _ hne
  obtain ⟨out, hout, hhas⟩ := has_outs_of_mem_storesOf hjumps hstores hdone hb hi
  rw [← houts, htallied.outs b hb, Option.some.injEq] at hout
  -- A block without a report would be left by no store.
  by_contra hnone
  have habout : l.about b = [] := by
    unfold Reports.about
    rw [List.map_eq_nil_iff, List.filter_eq_nil_iff]
    intro r hr hrb
    exact hnone ⟨r, hr, of_decide_eq_true hrb⟩
  have hempty : l.latest (reachingStores p.instrs.size Session.program).init b = .empty := by
    rw [Reports.latest, habout]
    rfl
  rw [← hout, hempty, BitSet.has_empty] at hhas
  cases hhas

end Flow

/-! ### The pass -/

/-- Behind the solver nothing goes wrong, and nothing happens to the program. -/
theorem succeeds_constProp_of_solve {f : FuncId} {s t : Session}
    {sol : Flow.Solution (Flow.InstrSet s.program.instrs.size)}
    (h : Flow.solveReachingStores s.program f Session.program propagateBlock s = (.ok sol, t)) :
    (constProp f).Succeeds s fun _ u => u.program = t.program := by
  unfold constProp
  rw [Act.Succeeds, Act.ensures_bind, Act.ensures_get, Act.ensures_bind, Pass.ensures_program,
    Act.ensures_bind, Act.ensures_of_run h, Act.ensures_bind]
  exact (succeeds_logUnreachable f _ t).mono fun _ _ hu => hu.1

open Flow in
/-- Any propagation through blocks of a function that does not leave out a block with a store. -/
theorem exists_collapsed_of_visits {s : Session} {f : FuncId} {n : Nat} (hexact : s.program.UsesExact)
    (hstores : s.program.StoresAddressed f) (visits : Reports (InstrSet n))
    (hwithin : ∀ r ∈ visits, r.1 ∈ s.program.blockRefs f)
    (hcover : ∀ b ∈ s.program.blockRefs f, storesOf s.program b ≠ [] → ∃ r ∈ visits, r.1 = b) :
    ∃ t, propagateAll visits s = (.ok (), t) ∧
      ∀ i ∈ s.program.funcInstrs f, (s.program.instr i).StoresConst → (t.program.instr i).Collapsed := by
  have hfunc : ∀ r ∈ visits, r.1.func = f := fun r hr => (Program.mem_blockRefs.mp (hwithin r hr)).1
  obtain ⟨_, t, hrun, ht⟩ := (collapses_propagateAll visits s hexact hstores hfunc).exists_eq
  refine ⟨t, hrun, fun i hi hconst => ht.collapses i ?_ hconst⟩
  obtain ⟨k, hk⟩ := Program.mem_funcInstrs.mp hi
  have hstore : i ∈ storesOf s.program ⟨f, k⟩ := mem_storesOf.mpr ⟨hk, hconst.1⟩
  have hb : ⟨f, k⟩ ∈ s.program.blockRefs f :=
    Program.mem_blockRefs.mpr ⟨rfl, Program.hasBlock_of_mem hk⟩
  obtain ⟨r, hr, hrb⟩ := hcover ⟨f, k⟩ hb (List.ne_nil_of_mem hstore)
  exact List.mem_flatMap.mpr ⟨r, hr, hrb ▸ hk⟩

open Flow in
/-- **Every store of a constant ends up with one and the same constant as its value and as its address,** in
any function whose jumps stay within it and whose stores have two operands, of any program with exact
use-lists, as all programs have that are read from a text or built by complete commands.  The pass ends
without a fault.  Nor does this depend on its visits: any propagation through blocks of the function does
the same, in whatever order, however often, and whichever stores are said to leave them, if it does not
leave out a block that has a store. -/
theorem constProp_collapses {s : Session} {f : FuncId} (hexact : s.program.UsesExact)
    (hjumps : s.program.JumpsWithin f) (hstores : s.program.StoresAddressed f) :
    (∃ changed t, constProp f s = (.ok changed, t) ∧
      ∀ i ∈ s.program.funcInstrs f, (s.program.instr i).StoresConst → (t.program.instr i).Collapsed) ∧
    ∀ n, ∀ visits : Reports (InstrSet n), (∀ r ∈ visits, r.1 ∈ s.program.blockRefs f) →
      (∀ b ∈ s.program.blockRefs f, storesOf s.program b ≠ [] → ∃ r ∈ visits, r.1 = b) →
      ∃ t, propagateAll visits s = (.ok (), t) ∧
        ∀ i ∈ s.program.funcInstrs f, (s.program.instr i).StoresConst →
          (t.program.instr i).Collapsed := by
  refine ⟨?_, fun n => exists_collapsed_of_visits hexact hstores⟩
  obtain ⟨sol, t, visits, hsolve, hvisits, hwithin, hcover⟩ := exists_visits hjumps hstores rfl
  obtain ⟨t', hrun, hcollapsed⟩ := exists_collapsed_of_visits hexact hstores visits hwithin hcover
  obtain rfl : t = t' := (Prod.mk.inj (hvisits.symm.trans hrun)).2
  obtain ⟨changed, u, hprop, hprogram⟩ := (succeeds_constProp_of_solve hsolve).exists_eq
  exact ⟨changed, u, hprop, hprogram ▸ hcollapsed⟩

/-- Four stores to one address, in a block, in a loop and in a block that nothing jumps to. -/
theorem constProp_collapses_looped : ∃ p, Program.parse "m" looped = .ok p ∧
    ∃ changed t, constProp 0 { program := p } = (.ok changed, t) ∧
      ∀ i ∈ [0, 2, 5, 6], (p.instr i).StoresConst ∧ (t.program.instr i).Collapsed := by
  obtain ⟨p, hp, hfacts⟩ : ∃ p, Program.parse "m" looped = .ok p ∧
      ([(0, 0), (2, 1), (5, 3), (6, 4)].all fun x => (p.funcInstrs 0).contains x.1 &&
        (p.instr x.1).op == .store &&
        (p.instr x.1).operands == [some (.const x.2), some (.param 0)]) = true :=
    Program.exists_of_parse (by decide +kernel)
  have hwf := (Program.wellFormed_of_parse hp).1
  obtain ⟨changed, t, hrun, hcollapsed⟩ := (@constProp_collapses { program := p } 0 hwf.exact
    (hwf.jumpsWithin 0) fun i hi hop => by
      obtain ⟨b, hb, -⟩ := hwf.mem_funcInstrs.mp hi
      exact hwf.exists_address hb hop).1
  refine ⟨p, hp, changed, t, hrun, fun i hi => ?_⟩
  obtain ⟨c, hc⟩ : ∃ c, (i, c) ∈ [(0, 0), (2, 1), (5, 3), (6, 4)] := by
    simp only [List.mem_cons, List.not_mem_nil, or_false] at hi
    rcases hi with rfl | rfl | rfl | rfl
    · exact ⟨0, by decide⟩
    · exact ⟨1, by decide⟩
    · exact ⟨3, by decide⟩
    · exact ⟨4, by decide⟩
  have hfact := List.all_eq_true.mp hfacts (i, c) hc
  simp only [Bool.and_eq_true, List.contains_iff_mem, beq_iff_eq] at hfact
  have hstores : (p.instr i).StoresConst := ⟨hfact.1.2, c, _, hfact.2⟩
  exact ⟨hstores, hcollapsed i hfact.1.1 hstores⟩

end Midend
