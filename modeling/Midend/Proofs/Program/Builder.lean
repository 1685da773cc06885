import Midend.Proofs.Program.WellFormed

/-!
# Building programs

A program is built in steps that keep it coherent and ordered: parts without instructions are added,
instructions without operands are put at the end of blocks, and last instructions are given their
operands and targets.  Only then does every store have its operands; until then some are pending.

## Main definitions

* `Program.StoresBut`: all stores but the pending ones have two operands.
* `Program.extend`: a new instruction at the end of a block.
* `Program.link`: the operands and targets of an instruction.

## Main results

* `Coherent.of_instrs`, `Coherent.extend`, `Coherent.link`: the steps keep a program coherent.
* `Ordered.extend`, `Ordered.link`: and ordered.
-/

namespace Midend.Program

variable {p q : Program}

/-! ### Parts without instructions -/

/-- The rules depend on the instructions only, as long as no block goes and types have names. -/
theorem Coherent.of_instrs (h : p.Coherent) (hinstr : ∀ i, q.instr i = p.instr i)
    (huses : ∀ v, q.usesOf v = p.usesOf v)
    (hblock : ∀ b, (q.block b).instrs = (p.block b).instrs) (harranged : q.Arranged)
    (hsize : ∀ f, (p.func f).blocks.size ≤ (q.func f).blocks.size)
    (hnamed : ∀ f, (q.func f).ret.name?.isSome = true) : q.Coherent where
  toArranged := harranged
  exact := h.exact.congr (fun i => by rw [hinstr]) huses
  increasing b := by
    rw [hblock]
    exact h.increasing b
  bare i := by
    rw [hinstr]
    exact h.bare i
  usable i b hi v hv := by
    rw [hinstr] at hi hv
    obtain ⟨w, rfl, hw⟩ := h.usable i b hi v hv
    refine ⟨w, rfl, ?_⟩
    cases w with
    | instr d =>
      rw [usable_instr, hinstr]
      exact hw
    | _ => trivial
  void i b := by
    rw [hinstr]
    exact h.void i b
  last b i := by
    rw [hblock, hinstr]
    exact h.last b i
  targets i b hi t ht := by
    rw [hinstr] at hi ht
    obtain ⟨hfunc, hindex⟩ := h.targets i b hi t ht
    exact ⟨hfunc, Nat.lt_of_lt_of_le hindex (hsize b.func)⟩
  named := hnamed

theorem Ordered.of_instrs (h : p.Ordered) (hinstr : ∀ i, q.instr i = p.instr i) : q.Ordered := by
  intro i d b hi hd hmem
  rw [hinstr] at hi hd hmem
  exact h i d b hi hd hmem

/-- A program without functions and instructions. -/
theorem coherent_of_empty (hfuncs : p.funcs = #[]) (hinstrs : p.instrs = {}) (hlinks : p.links = {})
    (huses : p.uses = {}) :
    p.Coherent ∧ p.Ordered := by
  have hfunc : ∀ f, p.func f = default := by
    intro f
    rw [func, hfuncs]
    rfl
  have hblock : ∀ b, p.block b = default := by
    intro b
    rw [block, hfunc]
    rfl
  have hinstr : ∀ i, p.instr i = default := by
    intro i
    rw [instr, hinstrs]
    exact Table.get_empty i
  have husesOf : ∀ v, p.usesOf v = [] := by
    intro v
    rw [usesOf, huses]
    cases v <;> rfl
  have hplace : ∀ i b, (p.instr i).place ≠ .inBlock b := by
    intro i b heq
    rw [hinstr] at heq
    cases heq
  have hcoherent : p.Coherent :=
    { toArranged := .of_empty hfuncs hinstrs hlinks
      exact := fun v slot => by
        rw [husesOf, readSlot, hinstr]
        rfl
      increasing := fun b => by
        rw [hblock]
        exact List.Pairwise.nil
      bare := fun i _ => by
        rw [hinstr]
        rfl
      usable := fun i b hi => absurd hi (hplace i b)
      void := fun i b hi => absurd hi (hplace i b)
      last := fun b i hi => by
        rw [hblock] at hi
        cases hi
      targets := fun i b hi => absurd hi (hplace i b)
      named := fun f => by
        rw [hfunc]
        rfl }
  exact ⟨hcoherent, fun i d b hi => absurd hi (hplace i b)⟩

/-- All stores but the pending ones have a value and an address. -/
def StoresBut (pending : List InstrId) (p : Program) : Prop :=
  ∀ i b, (p.instr i).place = .inBlock b → (p.instr i).op = .store →
    i ∈ pending ∨ (p.instr i).operands.length = 2

theorem StoresBut.of_instrs {pending : List InstrId} (h : p.StoresBut pending)
    (hinstr : ∀ i, q.instr i = p.instr i) : q.StoresBut pending := by
  intro i b
  rw [hinstr]
  exact h i b

theorem StoresBut.mono {pending pending' : List InstrId} (h : p.StoresBut pending)
    (hsub : ∀ i ∈ pending, i ∈ pending') : p.StoresBut pending' :=
  fun i b hi hop => (h i b hi hop).imp_left (hsub i)

theorem Coherent.wellFormed (h : p.Coherent) (hstores : p.StoresBut []) : p.WellFormed :=
  { h with stores := fun i b hi hop => (hstores i b hi hop).resolve_left List.not_mem_nil }

theorem WellFormed.storesBut (h : p.WellFormed) : p.StoresBut [] :=
  fun i b hi hop => .inr (h.stores i b hi hop)

/-! ### A new instruction -/

/-- Puts a new instruction at the end of a block. -/
def extend (p : Program) (b : BlockRef) (x : Instr) : Program :=
  (p.addInstr x).2.appendTo b p.instrs.size

theorem instr_extend (p : Program) (b : BlockRef) (x : Instr) (j : InstrId) :
    (p.extend b x).instr j = if p.instrs.size = j then
      { x with id := (p.func b.func).lastId + 1, place := .inBlock b } else p.instr j := by
  rw [extend, appendTo, (relinked_linkLast _ _ _).instr, instr_attach, instr_addInstr, instr_addInstr, if_pos rfl]
  by_cases hj : p.instrs.size = j
  · rw [if_pos hj, if_pos hj]
    rfl
  · rw [if_neg hj, if_neg hj, if_neg (Ne.symm hj)]

theorem instr_extend_size (p : Program) (b : BlockRef) (x : Instr) :
    (p.extend b x).instr p.instrs.size =
      { x with id := (p.func b.func).lastId + 1, place := .inBlock b } := by
  rw [instr_extend, if_pos rfl]

theorem instr_extend_of_ne {j : InstrId} (hj : p.instrs.size ≠ j) (b : BlockRef) (x : Instr) :
    (p.extend b x).instr j = p.instr j := by
  rw [instr_extend, if_neg hj]

theorem operands_extend {x : Instr} (hops : x.operands = []) (b : BlockRef) (j : InstrId) :
    ((p.extend b x).instr j).operands = (p.instr j).operands := by
  by_cases hj : p.instrs.size = j
  · subst hj
    rw [instr_extend_size, instr_of_size_le (Nat.le_refl _)]
    exact hops
  · rw [instr_extend_of_ne hj]

theorem func_extend {b : BlockRef} (hb : p.HasBlock b) (x : Instr) (f : FuncId) :
    ((p.extend b x).func f).blocks.size = (p.func f).blocks.size ∧
      ((p.extend b x).func f).ret = (p.func f).ret := by
  obtain ⟨blocks, hsize, heq⟩ := (attaches_appendTo (p := (p.addInstr x).2) hb p.instrs.size).func f
  rw [extend, heq]
  exact ⟨hsize, rfl⟩

/-- Nothing comes behind a jump. -/
theorem Coherent.not_isTerminator (h : p.Coherent) {b : BlockRef} (hb : p.terminator? b = none)
    {i : InstrId} (hi : i ∈ (p.block b).instrs) : (p.instr i).op.isTerminator = false := by
  refine Bool.eq_false_iff.mpr fun hop => ?_
  rw [h.terminator?_eq, h.last b i hi hop] at hb
  simp [hop] at hb

/-- A usable value stays usable. -/
theorem Usable.extend {f : FuncId} {v : Value} (hv : p.Usable f v) (b : BlockRef) (x : Instr) :
    (p.extend b x).Usable f v := by
  cases v with
  | instr d =>
    obtain ⟨c, hc, hrest⟩ := hv
    rw [usable_instr, instr_extend_of_ne (Nat.ne_of_gt (lt_size_of_inBlock hc))]
    exact ⟨c, hc, hrest⟩
  | _ => trivial

section Extend

variable {b : BlockRef} {x : Instr} (h : p.Coherent) (hops : x.operands = [])

include h

theorem Coherent.lt_size {c : BlockRef} {j : InstrId} (hj : j ∈ (p.block c).instrs) :
    j < p.instrs.size :=
  lt_size_of_inBlock ((h.listed c j).mp hj)

theorem Coherent.block_extend (hb : p.HasBlock b) (hplace : x.place = .detached) (c : BlockRef) :
    (p.extend b x).block c = if b = c then
      (p.block b).listing ((p.block b).instrs ++ [p.instrs.size]) else p.block c :=
  (h.addInstr hplace).block_appendTo hb _ c

include hops

/-- A new instruction without operands may be put at the end of a block that does not jump yet. -/
theorem Coherent.extend (hb : p.HasBlock b) (hterm : p.terminator? b = none)
    (hplace : x.place = .detached) (htargets : x.targets = [])
    (hvoid : x.op = .store → x.ty.isVoid = true) : (p.extend b x).Coherent where
  toArranged := (h.addInstr hplace).appendTo hb (by rw [instr_addInstr, if_pos rfl, hplace])
  exact := h.exact.congr (operands_extend hops b) (relinked_linkLast _ _ _).usesOf
  increasing c := by
    rw [h.block_extend hb hplace]
    split
    · refine List.pairwise_append.mpr ⟨h.increasing b, List.pairwise_singleton _ _, fun j hj k hk => ?_⟩
      rw [List.mem_singleton.mp hk]
      exact h.lt_size hj
    · exact h.increasing c
  bare j hj := by
    rw [operands_extend hops]
    refine h.bare j fun c hc => hj c ?_
    rw [instr_extend_of_ne (Nat.ne_of_gt (lt_size_of_inBlock hc))]
    exact hc
  usable j c hj v hv := by
    rw [operands_extend hops] at hv
    have hj' : (p.instr j).place = .inBlock c := by
      by_cases hnew : p.instrs.size = j
      · subst hnew
        rw [instr_of_size_le (Nat.le_refl _)] at hv
        cases hv
      · rwa [instr_extend_of_ne hnew] at hj
    obtain ⟨w, rfl, hw⟩ := h.usable j c hj' v hv
    exact ⟨w, rfl, hw.extend b x⟩
  void j c hj hop := by
    by_cases hnew : p.instrs.size = j
    · subst hnew
      rw [instr_extend_size] at hop ⊢
      exact hvoid hop
    · rw [instr_extend_of_ne hnew] at hj hop ⊢
      exact h.void j c hj hop
  last c j hj hop := by
    rw [h.block_extend hb hplace] at hj ⊢
    by_cases hc : b = c
    · -- The block did not jump before, so only the new instruction can.
      subst hc
      rw [if_pos rfl] at hj ⊢
      rcases List.mem_append.mp hj with hj | hj
      · rw [instr_extend_of_ne (Nat.ne_of_gt (h.lt_size hj)), h.not_isTerminator hterm hj] at hop
        cases hop
      · rw [List.mem_singleton.mp hj]
        exact List.getLast?_concat
    · rw [if_neg hc] at hj ⊢
      rw [instr_extend_of_ne (Nat.ne_of_gt (h.lt_size hj))] at hop
      exact h.last c j hj hop
  targets j c hj t ht := by
    rw [(func_extend hb x c.func).1]
    by_cases hnew : p.instrs.size = j
    · subst hnew
      rw [instr_extend_size, htargets] at ht
      cases ht
    · rw [instr_extend_of_ne hnew] at hj ht
      exact h.targets j c hj t ht
  named f := by
    rw [(func_extend hb x f).2]
    exact h.named f

theorem Ordered.extend (hord : p.Ordered) : (p.extend b x).Ordered := by
  intro i d c hi hd hmem
  rw [instr_extend] at hi hd hmem
  split at hmem
  · rw [hops] at hmem
    cases hmem
  · next hni =>
    rw [if_neg hni] at hi
    obtain ⟨_, hw, hu⟩ := h.usable i c hi _ hmem
    cases hw
    obtain ⟨cd, hcd, -⟩ := hu
    rw [if_neg (Nat.ne_of_gt (lt_size_of_inBlock hcd))] at hd
    exact hord i d c hi hd hmem

end Extend

theorem StoresBut.extend {pending : List InstrId} (h : p.StoresBut pending) (b : BlockRef)
    (x : Instr) : (p.extend b x).StoresBut (p.instrs.size :: pending) := by
  intro i c hi hop
  rw [instr_extend] at hi hop ⊢
  split
  · next hni => exact .inl (hni ▸ List.mem_cons_self)
  · next hni =>
    rw [if_neg hni] at hi hop
    exact (h i c hi hop).imp_left (List.mem_cons_of_mem _)

/-! ### Operands and targets -/

/-- Gives an instruction its operands and targets. -/
def link (p : Program) (i : InstrId) (targets : List BlockRef) (vs : List Value) : Program :=
  (p.modifyInstr i fun x => { x with targets := targets }).assignOperands i (vs.map some)

theorem funcs_registerFrom (i : InstrId) (k : Nat) (vs : List (Option Value)) (p : Program) :
    (p.registerFrom i k vs).funcs = p.funcs := by
  obtain ⟨us, heq⟩ := exists_registerFrom i k vs p
  rw [heq]

theorem links_registerFrom (i : InstrId) (k : Nat) (vs : List (Option Value)) (p : Program) :
    (p.registerFrom i k vs).links = p.links := by
  obtain ⟨us, heq⟩ := exists_registerFrom i k vs p
  rw [heq]

section Link

variable (p) (i : InstrId) (targets : List BlockRef) (vs : List Value)

theorem instr_link (j : InstrId) : (p.link i targets vs).instr j = if i = j then
    { p.instr i with targets := targets, operands := vs.map some } else p.instr j := by
  rw [link, instr_assignOperands]
  split
  · rw [instr_modifyInstr_self]
  · next hij => exact instr_modifyInstr_of_ne hij _

theorem funcs_link : (p.link i targets vs).funcs = p.funcs := funcs_registerFrom i 0 _ _

/-- Linking changes targets and operands only. -/
theorem exists_instr_link (j : InstrId) :
    ∃ ts os, (p.link i targets vs).instr j = { p.instr j with targets := ts, operands := os } := by
  rw [instr_link]
  split
  · next hij =>
    subst hij
    exact ⟨_, _, rfl⟩
  · exact ⟨_, _, rfl⟩

theorem place_link (j : InstrId) : ((p.link i targets vs).instr j).place = (p.instr j).place := by
  obtain ⟨ts, os, heq⟩ := p.exists_instr_link i targets vs j
  rw [heq]

theorem op_link (j : InstrId) : ((p.link i targets vs).instr j).op = (p.instr j).op := by
  obtain ⟨ts, os, heq⟩ := p.exists_instr_link i targets vs j
  rw [heq]

theorem ty_link (j : InstrId) : ((p.link i targets vs).instr j).ty = (p.instr j).ty := by
  obtain ⟨ts, os, heq⟩ := p.exists_instr_link i targets vs j
  rw [heq]

variable {p i targets vs} {b : BlockRef}

theorem usable_link {f : FuncId} {v : Value} :
    (p.link i targets vs).Usable f v ↔ p.Usable f v := by
  cases v with
  | instr d => rw [usable_instr, usable_instr, place_link, ty_link]
  | _ => exact Iff.rfl

/-- An instruction without operands may be given usable ones, and targets in its function. -/
theorem Coherent.link (h : p.Coherent) (hi : (p.instr i).place = .inBlock b)
    (hempty : (p.instr i).operands = [])
    (htargets : ∀ t ∈ targets, t.func = b.func ∧ t.index < (p.func b.func).blocks.size)
    (hvs : ∀ v ∈ vs, p.Usable b.func v) : (p.link i targets vs).Coherent where
  exact := by
    have hmodified : (p.modifyInstr i fun x => { x with targets := targets }).UsesExact := by
      refine h.exact.congr (fun j => ?_) fun _ => rfl
      rw [instr_modifyInstr]
      split
      · next hij => rw [hij]
      · rfl
    refine hmodified.assignOperands ?_ _
    rw [instr_modifyInstr_self]
    exact hempty
  toArranged := by
    refine h.of_blocks (p.place_link i targets vs) (links_registerFrom i 0 _ _)
      (block_congr (p.funcs_link i targets vs)) fun c hc => ?_
    rwa [HasBlock, func_congr (p.funcs_link i targets vs)] at hc
  increasing c := by
    rw [block_congr (p.funcs_link i targets vs)]
    exact h.increasing c
  bare j hj := by
    simp only [place_link] at hj
    have hij : i ≠ j := by
      intro hij
      subst hij
      exact hj b hi
    rw [instr_link, if_neg hij]
    exact h.bare j hj
  usable j c hj v hv := by
    rw [place_link] at hj
    rw [instr_link] at hv
    split at hv
    · next hij =>
      subst hij
      rw [hi] at hj
      cases hj
      obtain ⟨w, hw, rfl⟩ := List.mem_map.mp hv
      exact ⟨w, rfl, usable_link.mpr (hvs w hw)⟩
    · obtain ⟨w, rfl, hw⟩ := h.usable j c hj v hv
      exact ⟨w, rfl, usable_link.mpr hw⟩
  void j c := by
    rw [place_link, op_link, ty_link]
    exact h.void j c
  last c j := by
    rw [block_congr (p.funcs_link i targets vs), op_link]
    exact h.last c j
  targets j c hj t ht := by
    rw [place_link] at hj
    rw [func_congr (p.funcs_link i targets vs)]
    rw [instr_link] at ht
    split at ht
    · next hij =>
      subst hij
      rw [hi] at hj
      cases hj
      exact htargets t ht
    · exact h.targets j c hj t ht
  named f := by
    rw [func_congr (p.funcs_link i targets vs)]
    exact h.named f

/-- Operands that are defined before. -/
theorem Ordered.link (h : p.Ordered)
    (hvs : ∀ d, Value.instr d ∈ vs → (p.instr d).place = (p.instr i).place → d < i) :
    (p.link i targets vs).Ordered := by
  intro j d c hj hd hmem
  rw [place_link] at hj hd
  rw [instr_link] at hmem
  split at hmem
  · next hij =>
    subst hij
    obtain ⟨w, hw, heq⟩ := List.mem_map.mp hmem
    cases heq
    exact hvs d hw (hd.trans hj.symm)
  · exact h j d c hj hd hmem

/-- What is given its operands is no longer pending. -/
theorem StoresBut.link {pending : List InstrId} (h : p.StoresBut (i :: pending))
    (hvs : (p.instr i).op = .store → vs.length = 2) :
    (p.link i targets vs).StoresBut pending := by
  intro j c hj hop
  rw [place_link] at hj
  rw [op_link] at hop
  rw [instr_link]
  split
  · next hij =>
    subst hij
    exact .inr ((List.length_map _).trans (hvs hop))
  · next hij =>
    refine (h j c hj hop).imp_left fun hmem => ?_
    exact (List.mem_cons.mp hmem).resolve_left (Ne.symm hij)

end Link

end Midend.Program
