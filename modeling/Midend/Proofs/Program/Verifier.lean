import Midend.Proofs.Pass.RewriteSteps

/-!
# What the verifier finds in well-formed programs

In a well-formed program the verifier can find nothing but uses before definitions, and it finds
all of these.

## Main results

* `Coherent.mem_verifyFunc`: the breaches in a function are its uses before definitions.
* `Coherent.verify_eq_nil_iff`: there are no breaches just if definitions precede uses.
-/

namespace Midend

/-- In an increasing list, positions are compared as the elements are. -/
theorem idxOf_le_idxOf_iff {l : List Nat} (hl : l.Pairwise (· < ·)) {x y : Nat} (hx : x ∈ l)
    (hy : y ∈ l) : l.idxOf x ≤ l.idxOf y ↔ x ≤ y := by
  have hget : ∀ {z}, z ∈ l → ∃ h : l.idxOf z < l.length, l[l.idxOf z] = z :=
    fun hz => ⟨List.idxOf_lt_length_iff.mpr hz, List.getElem_idxOf _⟩
  obtain ⟨hxl, hxe⟩ := hget hx
  obtain ⟨hyl, hye⟩ := hget hy
  have hlt := List.pairwise_iff_getElem.mp hl
  constructor
  · intro hle
    rcases Nat.lt_or_eq_of_le hle with h | h
    · have := hlt _ _ hxl hyl h
      rw [hxe, hye] at this
      exact Nat.le_of_lt this
    · simp only [h] at hxe
      exact Nat.le_of_eq (hxe.symm.trans hye)
  · intro hle
    refine Nat.le_of_not_lt fun h => ?_
    have := hlt _ _ hyl hxl h
    rw [hxe, hye] at this
    exact absurd this (Nat.not_lt_of_le hle)

theorem nodup_eraseDups {α : Type} [DecidableEq α] (l : List α) : l.eraseDups.Nodup := by
  cases l with
  | nil => exact List.nodup_nil
  | cons a l =>
    rw [List.eraseDups_cons, List.nodup_cons]
    refine ⟨fun ha => ?_, nodup_eraseDups _⟩
    simpa using (List.mem_filter.mp (List.mem_eraseDups.mp ha)).2
termination_by l.length
decreasing_by exact Nat.lt_succ_of_le (List.length_filter_le _ _)

/-- A list without repetitions has none to drop. -/
theorem eraseDups_of_nodup {α : Type} [DecidableEq α] {l : List α} (h : l.Nodup) :
    l.eraseDups = l := by
  induction l with
  | nil => rfl
  | cons a l ih =>
    rw [List.nodup_cons] at h
    have hfilter : l.filter (fun b => !b == a) = l := by
      rw [List.filter_eq_self]
      intro b hb
      simp only [Bool.not_eq_true', beq_eq_false_iff_ne]
      exact fun hba => h.1 (hba ▸ hb)
    rw [List.eraseDups_cons, hfilter, ih h.2]

namespace Program

variable {p : Program}

/-! ### Blocks -/

theorem Arranged.chains_eq (h : p.Arranged) (f : FuncId) : p.chains f = p.funcInstrs f := by
  rw [chains, funcInstrs_eq_flatMap]
  exact congrArg (List.flatMap · (p.blockRefs f)) (funext h.chain_eq)

/-- In an arranged program, terminators are all that is wrong with a block. -/
theorem Arranged.blockViolations_eq (h : p.Arranged) (b : BlockRef) :
    p.blockViolations b = (p.block b).instrs.flatMap fun i =>
      if (p.instr i).op.isTerminator = true ∧ (p.block b).instrs.getLast? ≠ some i then
        [.misplacedTerminator (p.block b).name (p.instr i).op] else [] := by
  unfold blockViolations
  dsimp only
  rw [h.chain_eq, h.size, if_pos rfl, List.append_nil]
  refine List.flatMap_congr fun i hi => ?_
  have hnext : (p.next? i).isSome = true ↔ (p.block b).instrs.getLast? ≠ some i := by
    rw [Option.isSome_iff_ne_none, Ne, h.next?_eq_none_iff hi]
  rw [if_pos ((h.listed b i).mp hi), List.nil_append]
  simp only [Bool.and_eq_true, hnext]

theorem Coherent.blockViolations_eq_nil (h : p.Coherent) (b : BlockRef) :
    p.blockViolations b = [] := by
  rw [h.blockViolations_eq, List.flatMap_eq_nil_iff]
  intro i hi
  exact if_neg fun hop => hop.2 (h.last b i hi hop.1)

/-! ### Operands -/

/-- The breach of a slot that holds an instruction from its user on. -/
def useBeforeDef (p : Program) (b : BlockRef) (d i : InstrId) : Violation :=
  .usedBeforeDefined (p.block b).name (p.instr d).label (p.instr i).label

theorem Coherent.mem_slotViolations (h : p.Coherent) {b : BlockRef} {i : InstrId} {k : Nat}
    {v : Option Value} {x : Violation} (hi : (p.instr i).place = .inBlock b)
    (hv : v ∈ (p.instr i).operands) :
    x ∈ p.slotViolations b i k v ↔ ∃ d, v = some (.instr d) ∧ (p.instr d).place = .inBlock b ∧
      i ≤ d ∧ x = p.useBeforeDef b d i := by
  obtain ⟨w, rfl, hw⟩ := h.usable i b hi v hv
  cases w with
  | instr d =>
    obtain ⟨c, hc, hf, -⟩ := hw
    have hmem : (p.chains b.func).contains d = true := by
      rw [h.chains_eq, List.contains_iff_mem, h.mem_funcInstrs]
      exact ⟨c, hc, hf⟩
    unfold slotViolations
    dsimp only
    rw [hmem, h.chain_eq]
    by_cases hd : (p.instr d).place = .inBlock b
    · have hidx := idxOf_le_idxOf_iff (h.increasing b) ((h.listed b i).mpr hi)
        ((h.listed b d).mpr hd)
      by_cases hle : i ≤ d
      · simp [hd, hidx, hle, useBeforeDef]
      · simp [hidx, hle]
    · simp [hd]
  | _ => simp [slotViolations]

theorem Coherent.mem_operandViolations (h : p.Coherent) {b : BlockRef} {x : Violation} :
    x ∈ p.operandViolations b ↔ ∃ i d, (p.instr i).place = .inBlock b ∧
      (p.instr d).place = .inBlock b ∧ some (.instr d) ∈ (p.instr i).operands ∧ i ≤ d ∧
      x = p.useBeforeDef b d i := by
  unfold operandViolations
  simp only [h.chain_eq, List.mem_flatMap, Prod.exists]
  constructor
  · rintro ⟨i, hi, v, k, hv, hx⟩
    have hplace := (h.listed b i).mp hi
    have hmem : v ∈ (p.instr i).operands := List.mem_of_getElem? (List.mem_zipIdx_iff_getElem?.mp hv)
    obtain ⟨d, rfl, hd, hle, rfl⟩ := (h.mem_slotViolations hplace hmem).mp hx
    exact ⟨i, d, hplace, hd, hmem, hle, rfl⟩
  · rintro ⟨i, d, hi, hd, hmem, hle, rfl⟩
    obtain ⟨k, hk⟩ := List.getElem?_of_mem hmem
    refine ⟨i, (h.listed b i).mpr hi, some (.instr d), k, List.mem_zipIdx_iff_getElem?.mpr hk, ?_⟩
    exact (h.mem_slotViolations hi hmem).mpr ⟨d, rfl, hd, hle, rfl⟩

/-! ### Use-lists -/

theorem Arranged.mem_heldSlots (h : p.Arranged) {f : FuncId} {u : Use} {v : Value} :
    (u, v) ∈ p.heldSlots f ↔ u.user ∈ p.funcInstrs f ∧ p.readSlot u = some v := by
  unfold heldSlots
  simp only [h.chains_eq, List.mem_flatMap, List.mem_filterMap, Prod.exists, List.mem_zipIdx_iff_getElem?,
    Option.map_eq_some_iff, Prod.mk.injEq]
  rw [readSlot_eq_some_iff]
  constructor
  · rintro ⟨i, hi, o, k, hk, w, rfl, rfl, rfl⟩
    exact ⟨hi, hk⟩
  · rintro ⟨hi, hk⟩
    exact ⟨u.user, hi, some v, u.index, hk, v, rfl, rfl, rfl⟩

theorem Coherent.useListViolations_eq_nil (h : p.Coherent) (f : FuncId) (v : Value) :
    p.useListViolations f v = [] := by
  have hheld : ∀ u, u ∈ ((p.heldSlots f).filter fun s => s.2 = v).map Prod.fst ↔
      (∃ b, (p.instr u.user).place = .inBlock b ∧ b.func = f) ∧ p.readSlot u = some v := by
    intro u
    rw [← h.mem_funcInstrs, ← h.mem_heldSlots]
    simp
  have hlisted : ∀ u, u ∈ (p.usesOf v).filter (fun u => !p.isElsewhere f u.user) ↔
      (∃ b, (p.instr u.user).place = .inBlock b ∧ b.func = f) ∧ p.readSlot u = some v := by
    intro u
    rw [List.mem_filter, h.exact.mem_iff, and_comm]
    refine and_congr_left fun hread => ?_
    -- A slot that holds something is in a block.
    have hops : (p.instr u.user).operands ≠ [] := by
      intro hnil
      have := mem_operands_of_readSlot hread
      rw [hnil] at this
      cases this
    obtain ⟨b, hb⟩ := h.exists_block hops
    unfold isElsewhere
    rw [hb]
    simp
  have hsame : ∀ u, u ∈ ((p.heldSlots f).filter fun s => s.2 = v).map Prod.fst ↔
      u ∈ (p.usesOf v).filter (fun u => !p.isElsewhere f u.user) :=
    fun u => (hheld u).trans (hlisted u).symm
  dsimp only [useListViolations]
  rw [eraseDups_of_nodup ((h.exact.nodup v).filter _), if_pos rfl, List.append_nil,
    List.append_eq_nil_iff, List.map_eq_nil_iff, List.map_eq_nil_iff]
  refine ⟨List.filter_eq_nil_iff.mpr fun u hu => ?_, List.filter_eq_nil_iff.mpr fun u hu => ?_⟩
  · simpa using (hsame u).mpr hu
  · simpa using (hsame u).mp hu

/-! ### Functions and programs -/

/-- **The breaches in a function are its uses before definitions.** -/
theorem Coherent.mem_verifyFunc (h : p.Coherent) {f : FuncId} {x : Violation} :
    x ∈ p.verifyFunc f ↔ ∃ b i d, b.func = f ∧ (p.instr i).place = .inBlock b ∧
      (p.instr d).place = .inBlock b ∧ some (.instr d) ∈ (p.instr i).operands ∧ i ≤ d ∧
      x = p.useBeforeDef b d i := by
  have hblocks : (p.blockRefs f).flatMap p.blockViolations = [] :=
    List.flatMap_eq_nil_iff.mpr fun b _ => h.blockViolations_eq_nil b
  have huses : (p.valuesInSight f).flatMap (p.useListViolations f) = [] :=
    List.flatMap_eq_nil_iff.mpr fun v _ => h.useListViolations_eq_nil f v
  unfold verifyFunc
  rw [hblocks, huses, List.nil_append, List.append_nil, List.mem_flatMap]
  constructor
  · rintro ⟨b, hb, hx⟩
    obtain ⟨i, d, hrest⟩ := h.mem_operandViolations.mp hx
    obtain ⟨k, -, rfl⟩ := List.mem_map.mp hb
    exact ⟨_, i, d, rfl, hrest⟩
  · rintro ⟨b, i, d, rfl, hi, hrest⟩
    refine ⟨b, ?_, h.mem_operandViolations.mpr ⟨i, d, hi, hrest⟩⟩
    have hindex : p.HasBlock b := hasBlock_of_mem ((h.listed b i).mpr hi)
    exact List.mem_map.mpr ⟨b.index, List.mem_range.mpr hindex, rfl⟩

/-- Uses before definitions are all that is ever found. -/
theorem Coherent.usedBeforeDefined_of_mem_verify (h : p.Coherent) {e : String × List Violation}
    (he : e ∈ p.verify) {v : Violation} (hv : v ∈ e.2) :
    ∃ block operand user, v = .usedBeforeDefined block operand user := by
  unfold verify at he
  obtain ⟨hmem, -⟩ := List.mem_filter.mp he
  obtain ⟨f, -, rfl⟩ := List.mem_map.mp hmem
  obtain ⟨b, i, d, -, -, -, -, -, rfl⟩ := h.mem_verifyFunc.mp hv
  exact ⟨_, _, _, rfl⟩

theorem verify_eq_nil_iff : p.verify = [] ↔ ∀ f < p.funcs.size, p.verifyFunc f = [] := by
  unfold verify
  rw [List.filter_eq_nil_iff]
  simp

/-- There are no breaches just if definitions precede uses. -/
theorem Coherent.verify_eq_nil_iff (h : p.Coherent) : p.verify = [] ↔ p.Ordered := by
  rw [Program.verify_eq_nil_iff]
  constructor
  · intro hnone i d b hi hd hmem
    refine Nat.lt_of_not_le fun hle => ?_
    have hfunc := (hasBlock_of_mem ((h.listed b i).mpr hi)).func_lt
    have hbreach := h.mem_verifyFunc.mpr ⟨b, i, d, rfl, hi, hd, hmem, hle, rfl⟩
    rw [hnone b.func hfunc] at hbreach
    cases hbreach
  · intro hord f _
    rw [List.eq_nil_iff_forall_not_mem]
    intro x hx
    obtain ⟨b, i, d, -, hi, hd, hmem, hle, -⟩ := h.mem_verifyFunc.mp hx
    exact absurd (hord i d b hi hd hmem) (Nat.not_lt_of_le hle)

end Program

end Midend
