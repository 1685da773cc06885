import Midend.Proofs.Flow.ControlGraph
import Midend.Proofs.Flow.SolverRounds
import Midend.Proofs.Pass.PeepholeWalk

/-!
# Propagating constants from well-formed programs

The propagation runs while the solver for reaching stores is at work, and rewrites the program under
it.  From a well-formed program this goes well: the rewriting touches operands only, so the stores of
a block stay the same; a block removes none of the stores that it does not also add; and so what
leaves a block is what enters it together with its own stores, which can only grow.  Since stores
have no result, no operand is ever a reaching store.

## Main definitions

* `Flow.Growing`: what leaves the blocks is below what will leave them next.
* `Program.Propagates`: the substitutions that the stores of a function ask for.
* `Session.Reslots`: rewriting steps that change operands only, by such substitutions.

## Main results

* `Flow.Growing.set`: a visit of a block keeps that.
* `succeeds_propagateBlock`: the propagation in a block.
* `safe_constProp`: the pass.
-/

namespace Midend

namespace Flow

/-! ### Sets -/

namespace BitSet

variable {n : Nat}

theorem has_ofList (l : List Nat) (i : Nat) :
    (ofList l : BitSet n).has i = true ↔ i ∈ l ∧ i < n := by
  have hfold : ∀ s : BitSet n, (l.foldl insert s).has i = true ↔
      s.has i = true ∨ i ∈ l ∧ i < n := by
    induction l with
    | nil => simp
    | cons j l ih =>
      intro s
      rw [List.foldl_cons, ih, has_insert]
      simp only [Bool.or_eq_true, Bool.and_eq_true, decide_eq_true_eq, List.mem_cons]
      grind
  rw [ofList, hfold]
  simp

theorem has_foldl_union {α : Type} (l : List α) (f : α → BitSet n) (s : BitSet n) (i : Nat) :
    (l.foldl (fun acc a => acc.union (f a)) s).has i = true ↔
      s.has i = true ∨ ∃ a ∈ l, (f a).has i = true := by
  induction l generalizing s with
  | nil => simp
  | cons a l ih =>
    rw [List.foldl_cons, ih, has_union, Bool.or_eq_true, or_assoc]
    simp only [List.mem_cons, exists_eq_or_imp]

end BitSet

/-! ### What blocks add and remove -/

section Stores

variable {n : Nat} {p q : Program}

theorem mem_storesOf {b : BlockRef} {i : InstrId} :
    i ∈ storesOf p b ↔ i ∈ (p.block b).instrs ∧ (p.instr i).op = .store := by
  unfold storesOf
  rw [List.mem_filter, decide_eq_true_eq]

/-- The stores of a block do not depend on the operands. -/
theorem storesOf_congr (h : Program.SameButOperands p q) (b : BlockRef) :
    storesOf q b = storesOf p b := by
  unfold storesOf
  rw [Program.block_congr h.funcs]
  exact List.filter_congr fun i _ => by rw [h.op]

/-- A block removes only what it adds. -/
theorem exists_killSet {b : BlockRef}
    (h : ∀ i ∈ storesOf p b, (p.instr i).operands.length = 2) :
    ∃ kill : InstrSet n, killSet n p b = .ok kill ∧
      ∀ i, kill.has i = true → (genSet n p b).has i = true := by
  unfold killSet genSet
  split
  · exact ⟨.empty, rfl, by simp⟩
  · exact ⟨.empty, rfl, by simp⟩
  · have haddress : ∀ i ∈ storesOf p b, ∃ v, addressOf p i = .ok v := by
      intro i hi
      have hlength := h i hi
      unfold addressOf
      rw [List.getElem?_eq_getElem (show 1 < _ by omega)]
      exact ⟨_, rfl⟩
    obtain ⟨addresses, haddresses⟩ := Act.exists_mapM_ok _ haddress
    rw [haddresses]
    refine ⟨_, rfl, fun i hi => ?_⟩
    rw [BitSet.has_ofList] at hi ⊢
    obtain ⟨hi, hlt⟩ := hi
    obtain ⟨e, he, rfl⟩ := List.mem_map.mp hi
    exact ⟨(List.of_mem_zip (List.mem_filter.mp he).1).1, hlt⟩

/-- As long as only operands change, a block adds what it added at the start. -/
theorem gen_run {σ : Type} {read : σ → Program} {s : σ} (h : Program.SameButOperands p (read s))
    (b : BlockRef) : (reachingStores n read).gen b s = (.ok (genSet n p b), s) := by
  change (Except.ok (genSet n (read s) b), s) = _
  rw [genSet, storesOf_congr h]
  rfl

/-- As long as only operands change and stores keep two of them, a block removes only what it added at
the start. -/
theorem exists_kill_run {σ : Type} {read : σ → Program} {s : σ} {b : BlockRef}
    (h : Program.SameButOperands p (read s))
    (hstores : ∀ i ∈ storesOf (read s) b, ((read s).instr i).operands.length = 2) (gen : InstrSet n) :
    ∃ kill, (reachingStores n read).kill b gen s = (.ok kill, s) ∧
      ∀ i, kill.has i = true → (genSet n p b).has i = true := by
  obtain ⟨kill, hkill, hsub⟩ := exists_killSet (n := n) hstores
  rw [genSet, storesOf_congr h] at hsub
  refine ⟨kill, ?_, hsub⟩
  change Act.ofExcept (killSet n (read s) b) s = _
  rw [hkill]
  rfl

/-- What is removed is added back. -/
theorem has_transferStores {inn gen kill : InstrSet n}
    (h : ∀ i, kill.has i = true → gen.has i = true) (i : Nat) :
    (transferStores inn gen kill).has i = true ↔ inn.has i = true ∨ gen.has i = true := by
  have := h i
  unfold transferStores
  simp only [BitSet.has_union, BitSet.has_diff]
  grind

end Stores

/-! ### What leaves the blocks -/

section Growth

variable {n : Nat} {p : Program} {g : Graph EdgeList} {outs : BlockMap (InstrSet n)}

/-- What leaves a block, as far as it is known. -/
def leaving (outs : BlockMap (InstrSet n)) (b : BlockRef) : InstrSet n := (outs.get? b).getD .empty

theorem leaving_of_get? {b : BlockRef} {t : InstrSet n} (h : outs.get? b = some t) :
    leaving outs b = t := by
  unfold leaving
  rw [h, Option.getD_some]

theorem has_entering {σ : Type} (read : σ → Program) (b : BlockRef) (i : Nat) :
    (entering (reachingStores n read) g outs b).has i = true ↔
      ∃ c ∈ g.predecessors b, (leaving outs c).has i = true := by
  refine (BitSet.has_foldl_union (g.predecessors b) (leaving outs) .empty i).trans ?_
  simp

/-- Only stores leave a block, and each is one of its own or enters it. -/
structure Growing (p : Program) (g : Graph EdgeList) (outs : BlockMap (InstrSet n)) : Prop where
  /-- Only stores leave a block. -/
  stores : ∀ b i, (leaving outs b).has i = true → ∃ c, i ∈ storesOf p c
  /-- They are its own or enter it. -/
  below : ∀ b i, (leaving outs b).has i = true →
    (∃ c ∈ g.predecessors b, (leaving outs c).has i = true) ∨ i ∈ storesOf p b

theorem Growing.fill (blocks : List BlockRef) :
    Growing p g (BlockMap.fill blocks (.empty : InstrSet n)) := by
  have hempty : ∀ b i, (leaving (BlockMap.fill blocks (.empty : InstrSet n)) b).has i = false := by
    intro b i
    unfold leaving
    rw [BlockMap.get?_fill]
    split <;> exact BitSet.has_empty i
  refine ⟨fun b i hi => ?_, fun b i hi => ?_⟩ <;> rw [hempty] at hi <;> cases hi

section Visit

variable {b : BlockRef} {old out : InstrSet n} (h : Growing p g outs) (hold : outs.get? b = some old)
  (hout : ∀ i, out.has i = true ↔
    (∃ c ∈ g.predecessors b, (leaving outs c).has i = true) ∨ (genSet n p b).has i = true)

include h hold hout

/-- What leaves a block has not shrunk. -/
theorem Growing.subset : old.subset out = true := by
  rw [BitSet.subset_iff]
  intro i hi
  rw [hout]
  rcases h.below b i (by rwa [leaving_of_get? hold]) with henter | hown
  · exact .inl henter
  · right
    rw [genSet, BitSet.has_ofList]
    exact ⟨hown, BitSet.lt_of_has hi⟩

omit hold in
theorem Growing.stores_of_out {i : Nat} (hi : out.has i = true) : ∃ c, i ∈ storesOf p c := by
  rw [hout] at hi
  rcases hi with ⟨c, -, hc⟩ | hgen
  · exact h.stores c i hc
  · rw [genSet, BitSet.has_ofList] at hgen
    exact ⟨b, hgen.1⟩

/-- **A visit keeps the sets growing.** -/
theorem Growing.set : Growing p g (outs.set b out) := by
  have hleaving : ∀ c, leaving (outs.set b out) c = if b = c then out else leaving outs c := by
    intro c
    unfold leaving
    rw [BlockMap.get?_set hold]
    split <;> rfl
  -- Nothing is lost, so what entered a block enters it still.
  have hmono : ∀ c i, (leaving outs c).has i = true → (leaving (outs.set b out) c).has i = true := by
    intro c i hi
    rw [hleaving]
    split
    · next hbc =>
      subst hbc
      rw [leaving_of_get? hold] at hi
      exact BitSet.subset_iff.mp (h.subset hold hout) i hi
    · exact hi
  have henter : ∀ c i, (∃ d ∈ g.predecessors c, (leaving outs d).has i = true) →
      ∃ d ∈ g.predecessors c, (leaving (outs.set b out) d).has i = true :=
    fun c i ⟨d, hd, hi⟩ => ⟨d, hd, hmono d i hi⟩
  refine ⟨fun c i hi => ?_, fun c i hi => ?_⟩
  · rw [hleaving] at hi
    split at hi
    · exact h.stores_of_out hout hi
    · exact h.stores c i hi
  · rw [hleaving] at hi
    split at hi
    · next hbc =>
      subst hbc
      rcases (hout i).mp hi with hi | hi
      · exact .inl (henter b i hi)
      · rw [genSet, BitSet.has_ofList] at hi
        exact .inr hi.1
    · exact (h.below c i hi).imp_left (henter c i)

end Visit

end Growth

end Flow

/-! ### Propagation in a block -/

/-- From one program to another by the stores of a function: each step puts the constant that a store
of the function stores for the address it stores to. -/
inductive Program.Propagates (f : FuncId) (p : Program) : Program → Prop where
  /-- No step at all. -/
  | refl : Propagates f p p
  /-- A further store. -/
  | step {q : Program} {i : InstrId} {b : BlockRef} {c : ConstId} {a : Value} : Propagates f p q →
      (q.instr i).place = .inBlock b → b.func = f → (q.instr i).op = .store →
      (q.instr i).operands = [some (.const c), some a] → Propagates f p (q.redirect a (.const c))

theorem Program.Propagates.trans {f : FuncId} {p q r : Program} (h : p.Propagates f q)
    (h' : q.Propagates f r) : p.Propagates f r := by
  induction h' with
  | refl => exact h
  | step _ hi hb hop hops ih => exact ih.step hi hb hop hops

/-- From one state of a session to another by rewriting steps that change operands only, as the
stores of a function ask. -/
structure Session.Reslots (f : FuncId) (s t : Session) : Prop where
  /-- There are rewriting steps. -/
  leads : s.Leads False 0 t
  /-- Only operands change. -/
  same : Program.SameButOperands s.program t.program
  /-- The stores of the function ask for it. -/
  propagates : s.program.Propagates f t.program
  /-- What is done is counted, and nothing else is. -/
  counted : ∃ n, t.stats = { s.stats with propagated := s.stats.propagated + n } ∧
    (n = 0 → t.program = s.program)

namespace Session.Reslots

variable {f : FuncId} {s t u : Session}

theorem refl (s : Session) : s.Reslots f s :=
  ⟨.refl s, .refl s.program, .refl, 0, rfl, fun _ => rfl⟩

theorem trans (h : s.Reslots f t) (h' : t.Reslots f u) : s.Reslots f u := by
  obtain ⟨n, hstats, hidle⟩ := h.counted
  obtain ⟨n', hstats', hidle'⟩ := h'.counted
  refine ⟨h.leads.trans h'.leads, h.same.trans h'.same, h.propagates.trans h'.propagates, n + n', ?_,
    fun hn => ?_⟩
  · rw [hstats', hstats, Nat.add_assoc]
  · rw [Nat.add_eq_zero_iff] at hn
    rw [hidle' hn.2, hidle hn.1]

end Session.Reslots

section Propagate

variable {s : Session}

/-- The address and the value of a store. -/
theorem store_run {p : Program} {i : InstrId} {v a : Option Value} (hop : (p.instr i).op = .store)
    (hops : (p.instr i).operands = [v, a]) :
    pointer i p = (.ok a, p) ∧ storeValue i p = (.ok v, p) := by
  have hpointer : (pointer i).Succeeds p fun r q => r = a ∧ q = p := by
    unfold pointer operandAt
    simp only [Act.Succeeds, Act.ensures_bind, Act.ensures_get, hop, hops]
    exact ⟨rfl, rfl⟩
  have hvalue : (storeValue i).Succeeds p fun r q => r = v ∧ q = p := by
    unfold storeValue operandAt
    simp only [Act.Succeeds, Act.ensures_bind, Act.ensures_get, hop, if_true, hops]
    exact ⟨rfl, rfl⟩
  obtain ⟨_, _, hrun, rfl, rfl⟩ := hpointer.exists_eq
  obtain ⟨_, _, hrun', rfl, rfl⟩ := hvalue.exists_eq
  exact ⟨hrun, hrun'⟩

/-- At a store with an address, the stored constant takes the place of the address if there is one and the
address is another value. -/
theorem propagateStore_cases (b : BlockRef) {i : InstrId} {v : Option Value} {a : Value}
    (hop : (s.program.instr i).op = .store) (hops : (s.program.instr i).operands = [v, some a]) :
    (propagateStore b i).Succeeds s fun _ t => (t = s ∧ ∀ c, v = some (.const c) → a = .const c) ∨
      ∃ c, v = some (.const c) ∧ t.program = s.program.redirect a (.const c) ∧
        t.stats = { s.stats with propagated := s.stats.propagated + 1 } := by
  obtain ⟨hpointer, hvalue⟩ := store_run hop hops
  unfold propagateStore
  simp only [Act.Succeeds, Act.ensures_bind, Pass.ensures_edit]
  rw [Act.ensures_of_run hpointer, Act.ensures_of_run hvalue]
  split
  · next c =>
    split
    · rw [Act.ensures_bind, Pass.ensures_count]
      simp only [Act.ensures_bind, Pass.ensures_edit]
      rw [Act.ensures_of_run (Program.replaceAllUses_run a (.const c) s.program)]
      exact .inr ⟨c, rfl, rfl, rfl⟩
    · next hsame =>
      refine .inl ⟨rfl, fun d hd => ?_⟩
      exact Option.some.inj ((Decidable.not_not.mp hsame).trans hd)
  · next hother => exact .inl ⟨rfl, fun c hc => absurd hc (hother c)⟩

/-- A store has an address. -/
theorem Program.WellFormed.exists_address {p : Program} (h : p.WellFormed) {i : InstrId} {b : BlockRef}
    (hi : (p.instr i).place = .inBlock b) (hop : (p.instr i).op = .store) :
    ∃ v a, (p.instr i).operands = [v, some a] := by
  obtain ⟨v, y, hops⟩ : ∃ v y, (p.instr i).operands = [v, y] :=
    ⟨_, _, List.eq_getElem_of_length_eq_two _ (h.stores i b hi hop)⟩
  obtain ⟨a, rfl, -⟩ := h.usable i b hi y (by simp [hops])
  exact ⟨v, a, hops⟩

theorem succeeds_propagateStore (b : BlockRef) {i : InstrId} (hs : s.program.WellFormed)
    (hi : (s.program.instr i).place = .inBlock b) (hop : (s.program.instr i).op = .store) :
    (propagateStore b i).Succeeds s fun _ t => s.Reslots b.func t := by
  obtain ⟨v, a, hops⟩ := hs.exists_address hi hop
  refine (propagateStore_cases b hop hops).mono fun _ t ht => ?_
  rcases ht with ⟨rfl, -⟩ | ⟨c, rfl, hprogram, hstats⟩
  · exact .refl t
  · refine ⟨.quiet ?_ (by rw [hstats]) (by rw [hstats]), ?_, ?_, 1, hstats, fun hn => by cases hn⟩ <;>
      rw [hprogram]
    · exact (Rewrites.refl _).change (.substitute a c)
    · exact Program.sameButOperands_redirect _ a (.const c)
    · exact .step .refl hi rfl hop hops

/-- No operand has a reaching store for its value. -/
theorem reachingOperand?_eq_none {n : Nat} {p : Program} {out : Flow.InstrSet n} {i : InstrId}
    {b : BlockRef} (h : p.Coherent) (hi : (p.instr i).place = .inBlock b)
    (hout : ∀ d, out.has d = true → (p.instr d).ty.isVoid = true) :
    reachingOperand? (p.instr i) out = none := by
  unfold reachingOperand? Instr.operandInstrs
  rw [List.find?_eq_none]
  intro d hd hhas
  obtain ⟨v, hv, hvd⟩ := List.mem_filterMap.mp hd
  obtain ⟨w, rfl, hw⟩ := h.usable i b hi v hv
  cases w with
  | instr e =>
    obtain rfl : e = d := Option.some.inj hvd
    obtain ⟨c, -, -, hty⟩ := hw
    rw [hout e hhas] at hty
    cases hty
  | _ => cases hvd

/-- At an instruction that is no store, its uses may be moved to the store that reaches an operand. -/
theorem propagateInstr_cases {n : Nat} {out : Flow.InstrSet n} (b : BlockRef) {i : InstrId}
    (hop : (s.program.instr i).op ≠ .store) : (propagateInstr b out i).Succeeds s fun _ t =>
      t = s ∨ ∃ d, reachingOperand? (s.program.instr i) out = some d ∧
        t.program = s.program.redirect (.instr i) (.instr d) := by
  unfold propagateInstr
  rw [Act.Succeeds, Act.ensures_bind, Pass.ensures_program]
  dsimp only
  rw [if_neg hop]
  split
  · exact .inl rfl
  · next d hd =>
    -- The use is counted or not; what follows is the same.
    split
    · rw [Act.ensures_bind, Pass.ensures_count]
      simp only [Act.ensures_bind, Pass.ensures_edit]
      rw [Act.ensures_of_run (Program.replaceAllUses_run (.instr i) (.instr d) s.program)]
      exact .inr ⟨d, hd, rfl⟩
    · simp only [Act.ensures_bind, Pass.ensures_edit]
      rw [Act.ensures_of_run (Program.replaceAllUses_run (.instr i) (.instr d) s.program)]
      exact .inr ⟨d, hd, rfl⟩

/-- At a store, a constant is propagated. -/
theorem propagateInstr_store {n : Nat} {out : Flow.InstrSet n} (b : BlockRef) {i : InstrId}
    {Q : Unit → Session → Prop} (hop : (s.program.instr i).op = .store)
    (h : (propagateStore b i).Succeeds s Q) : (propagateInstr b out i).Succeeds s Q := by
  unfold propagateInstr
  rw [Act.Succeeds, Act.ensures_bind, Pass.ensures_program]
  dsimp only
  rw [if_pos hop]
  exact h

theorem succeeds_propagateInstr {n : Nat} {out : Flow.InstrSet n} (b : BlockRef) {i : InstrId}
    (hs : s.program.WellFormed) (hi : (s.program.instr i).place = .inBlock b)
    (hout : ∀ d, out.has d = true → (s.program.instr d).ty.isVoid = true) :
    (propagateInstr b out i).Succeeds s fun _ t => s.Reslots b.func t := by
  by_cases hop : (s.program.instr i).op = .store
  · exact propagateInstr_store b hop (succeeds_propagateStore b hs hi hop)
  · refine (propagateInstr_cases b hop).mono fun _ t ht => ?_
    rcases ht with rfl | ⟨d, hd, -⟩
    · exact .refl t
    · rw [reachingOperand?_eq_none hs.toCoherent hi hout] at hd
      cases hd

theorem succeeds_propagateInstrs {n : Nat} {out : Flow.InstrSet n} (b : BlockRef)
    (l : List InstrId) (s : Session) (hs : s.program.WellFormed)
    (hl : ∀ i ∈ l, (s.program.instr i).place = .inBlock b)
    (hout : ∀ d, out.has d = true → (s.program.instr d).ty.isVoid = true) :
    (propagateInstrs b out l).Succeeds s fun _ t => s.Reslots b.func t := by
  induction l generalizing s with
  | nil => exact .refl s
  | cons i rest ih =>
    rw [propagateInstrs, Act.Succeeds, Act.ensures_bind]
    refine (succeeds_propagateInstr b hs (hl i List.mem_cons_self) hout).mono fun _ t ht => ?_
    refine (ih t (ht.leads.wellFormed hs) (fun j hj => ?_) fun d hd => ?_).mono
      fun _ _ hu => ht.trans hu
    · rw [ht.same.place]
      exact hl j (List.mem_cons_of_mem i hj)
    · rw [ht.same.ty]
      exact hout d hd

/-- Propagating through a block that only stores leave. -/
theorem succeeds_propagateBlock {n : Nat} {out : Flow.InstrSet n} (b : BlockRef)
    (hs : s.program.WellFormed)
    (hout : ∀ d, out.has d = true → (s.program.instr d).ty.isVoid = true) :
    (propagateBlock b out).Succeeds s fun _ t => s.Reslots b.func t := by
  unfold propagateBlock
  rw [Act.Succeeds, Act.ensures_bind, Pass.ensures_program]
  exact succeeds_propagateInstrs b _ s hs (fun i hi => (hs.listed b i).mp hi) hout

end Propagate

/-! ### The pass -/

/-- All jumps stay in the function. -/
theorem Program.Coherent.jumpsWithin {p : Program} (h : p.Coherent) (f : FuncId) :
    p.JumpsWithin f := by
  intro b hb t ht
  obtain ⟨rfl, -⟩ := Program.mem_blockRefs.mp hb
  unfold Program.successors at ht
  split at ht
  · next i hi =>
    rw [h.terminator?_eq] at hi
    have hlast := (Option.filter_eq_some_iff.mp hi).1
    have hplace := (h.listed b i).mp (List.mem_of_getLast? hlast)
    exact Program.mem_blockRefs.mpr (h.targets i b hplace t (List.mem_eraseDups.mp ht))
  · cases ht

/-- Entries in the log change nothing. -/
theorem succeeds_logUnreachable (f : FuncId) (l : List BlockRef) (s : Session) :
    (logUnreachable f l).Succeeds s fun _ t => t.program = s.program ∧ t.stats = s.stats := by
  induction l generalizing s with
  | nil => exact ⟨rfl, rfl⟩
  | cons b rest ih => exact ih _

theorem safe_logUnreachable {P : Prop} (f : FuncId) (l : List BlockRef) :
    Pass.Safe P 0 (logUnreachable f l) := by
  intro s _
  refine (succeeds_logUnreachable f l s).mono fun _ t ht => ?_
  refine .quiet ?_ (by rw [ht.2]) (by rw [ht.2])
  rw [ht.1]
  exact .refl _

/-- **The solver never sees a set shrink.**  While it runs, only operands change, and it stays within
the function. -/
theorem succeeds_solveReachingStores (f : FuncId) (s : Session) (hs : s.program.WellFormed) :
    (Flow.solveReachingStores s.program f Session.program propagateBlock).Succeeds s
      fun _ t => s.Reslots f t := by
  unfold Flow.solveReachingStores Flow.solve
  rw [Flow.Graph.ofFunc_eq (hs.jumpsWithin f), Act.Succeeds, Act.ensures_bind, Act.ensures_ofExcept_ok]
  refine Act.Succeeds.mono (Flow.ensures_solveFrom _ _ _ _
    (fun sol stack t => s.Reslots f t ∧
      Flow.Growing s.program (Flow.Graph.taken s.program f) sol.outs ∧
      ∀ b ∈ stack, b ∈ s.program.blockRefs f)
    (fun _ b _ _ _ h => ⟨h.1, h.2.1, fun c hc => h.2.2 c (List.mem_cons_of_mem b hc)⟩) ?_ _ _ s
    ⟨.refl s, .fill _, fun b hb => List.mem_reverse.mp hb⟩) fun _ _ h => h.1
  rintro sol b stack t old hold ⟨ht, hgrowing, hstack⟩
  have hwf := ht.leads.wellFormed hs
  have hb := hstack b List.mem_cons_self
  have hrest : ∀ c ∈ stack, c ∈ s.program.blockRefs f :=
    fun c hc => hstack c (List.mem_cons_of_mem b hc)
  have hstores : ∀ i ∈ Flow.storesOf t.program b, (t.program.instr i).operands.length = 2 := by
    intro i hi
    obtain ⟨hi, hop⟩ := Flow.mem_storesOf.mp hi
    exact hwf.stores i b ((hwf.listed b i).mp hi) hop
  obtain ⟨kill, hkill, hsub⟩ := Flow.exists_kill_run ht.same hstores
    (Flow.genSet s.program.instrs.size s.program b)
  rw [Act.ensures_of_run (Flow.gen_run ht.same b), Act.ensures_of_run hkill]
  dsimp only
  have hout : ∀ i, (Flow.transferStores (Flow.entering (Flow.reachingStores _ Session.program)
      (Flow.Graph.taken s.program f) sol.outs b)
      (Flow.genSet s.program.instrs.size s.program b) kill).has i = true ↔
      (∃ c ∈ (Flow.Graph.taken s.program f).predecessors b,
        (Flow.leaving sol.outs c).has i = true) ∨
      (Flow.genSet s.program.instrs.size s.program b).has i = true := by
    intro i
    rw [Flow.has_transferStores hsub, Flow.has_entering]
  refine ⟨fun _ => ⟨ht, hgrowing, hrest⟩, fun _ _ => ?_, fun _ hshrunk => ?_⟩
  · refine (succeeds_propagateBlock b hwf fun d hd => ?_).mono fun _ u hu => ?_
    · obtain ⟨c, hc⟩ := hgrowing.stores_of_out hout hd
      obtain ⟨hc, hop⟩ := Flow.mem_storesOf.mp hc
      rw [ht.same.ty]
      exact hs.void d c ((hs.listed c d).mp hc) hop
    · refine ⟨ht.trans ((Program.mem_blockRefs.mp hb).1 ▸ hu), hgrowing.set hold hout, fun c hc => ?_⟩
      rcases List.mem_append.mp hc with hc | hc
      · -- The propagation has left the jumps of the block as they were.
        have hsuccessors := (ht.trans ((Program.mem_blockRefs.mp hb).1 ▸ hu)).same.successors b
        exact hs.jumpsWithin f b hb c (hsuccessors ▸ List.mem_reverse.mp hc)
      · exact hrest c hc
  · -- The fault is out of reach.
    have hgrown := hgrowing.subset hold hout
    exact absurd (hgrown.symm.trans hshrunk) (by simp)

/-- Propagating constants through a function. -/
theorem safe_constProp {P : Prop} (f : FuncId) : Pass.Safe P 0 (constProp f) := by
  intro s hs
  unfold constProp
  rw [Act.Succeeds, Act.ensures_bind, Act.ensures_get, Act.ensures_bind, Pass.ensures_program,
    Act.ensures_bind]
  refine (succeeds_solveReachingStores f s hs).mono fun sol t ht => ?_
  refine (Pass.Safe.seq (safe_logUnreachable f _) (fun _ => Pass.Safe.seq
    (m := Pass.count fun c => { c with dataflowPops := c.dataflowPops + sol.pops })
    (.count (fun _ => rfl) fun _ => rfl) fun _ => Pass.Safe.get.seq fun _ => .pure _) t
    (ht.leads.wellFormed hs)).mono fun _ u hu =>
      (ht.leads.mono False.elim (Nat.le_refl 0)).trans hu

/-- The propagation with a bound on the rounds of the solver. -/
def constPropWithin (rounds : Nat) (f : FuncId) : Pass Bool := do
  let before := (← get).stats.propagated
  let p ← Pass.program
  let sol ← Flow.solveInRounds (Flow.reachingStores p.instrs.size Session.program) p f propagateBlock
    rounds
  logUnreachable f sol.unreachable
  Pass.count fun s => { s with dataflowPops := s.dataflowPops + sol.pops }
  return (← get).stats.propagated ≠ before

/-- If the rounds are enough, the pass does the same. -/
theorem succeeds_constProp_of_within (rounds : Nat) (f : FuncId) {s : Session}
    {Q : Bool → Session → Prop} (h : (constPropWithin rounds f).Succeeds s Q) :
    (constProp f).Succeeds s Q := by
  unfold constPropWithin at h
  unfold constProp Flow.solveReachingStores
  simp only [Act.Succeeds, Act.ensures_bind, Act.ensures_get, Pass.ensures_program] at h ⊢
  exact Flow.succeeds_solve_of_inRounds h

end Midend
