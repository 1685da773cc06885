import Midend.Proofs.Program.Arranged

/-!
# Well-formed programs

What every program that was read from a text has in common, and what the passes rely on: the lists
of the blocks agree with the places of the instructions, operands are values at hand in the
function of their user, stores have a value and an address, and only the last instruction of a block
jumps.  Instructions are numbered in the order of the text, so the numbers in a block increase.

That definitions precede uses within a block is not part of it; this is `Program.Ordered`, and the
merging of operands can destroy it.

## Main definitions

* `Program.Usable`: a value that the instructions of a function may use.
* `Program.Coherent`, `Program.WellFormed`: the rules above, without and with that on stores.
* `Program.Ordered`: within a block, definitions precede uses.

## Main results

* `WellFormed.of_operands`: changing operands for usable values.
* `WellFormed.redirect`, `WellFormed.replaceOperand`, `WellFormed.detach`, `WellFormed.withConsts`: the
  operations of the passes keep the rules.
-/

namespace Midend

namespace Program

variable {p : Program}

/-! ### The rules -/

/-- A value that the instructions of a function may use: an instruction must be in the function
and have a result. -/
def Usable (p : Program) (f : FuncId) : Value → Prop
  | .instr d => ∃ b, (p.instr d).place = .inBlock b ∧ b.func = f ∧ (p.instr d).ty.isVoid = false
  | _ => True

theorem usable_instr {f : FuncId} {d : InstrId} : p.Usable f (.instr d) ↔
    ∃ b, (p.instr d).place = .inBlock b ∧ b.func = f ∧ (p.instr d).ty.isVoid = false := Iff.rfl

end Program

/-- The rules that hold from the first instruction on, while a program is being built. -/
structure Program.Coherent (p : Program) : Prop extends p.Arranged where
  /-- The use-lists are exact. -/
  exact : p.UsesExact
  /-- The numbers in a block increase. -/
  increasing : ∀ b, (p.block b).instrs.Pairwise (· < ·)
  /-- Instructions outside all blocks have no operands. -/
  bare : ∀ i, (∀ b, (p.instr i).place ≠ .inBlock b) → (p.instr i).operands = []
  /-- Operands are there, and usable in the function. -/
  usable : ∀ i b, (p.instr i).place = .inBlock b → ∀ v ∈ (p.instr i).operands,
    ∃ w, v = some w ∧ p.Usable b.func w
  /-- Stores have no result. -/
  void : ∀ i b, (p.instr i).place = .inBlock b → (p.instr i).op = .store →
    (p.instr i).ty.isVoid = true
  /-- Jumps stand at the end. -/
  last : ∀ b, ∀ i ∈ (p.block b).instrs, (p.instr i).op.isTerminator = true →
    (p.block b).instrs.getLast? = some i
  /-- Jumps go to blocks of the function. -/
  targets : ∀ i b, (p.instr i).place = .inBlock b → ∀ t ∈ (p.instr i).targets,
    t.func = b.func ∧ t.index < (p.func b.func).blocks.size
  /-- The types of results have names. -/
  named : ∀ f, (p.func f).ret.name?.isSome = true

/-- The rules that hold between and within all passes: in addition, every store has a value and an
address. -/
structure Program.WellFormed (p : Program) : Prop extends p.Coherent where
  /-- A store has two operands. -/
  stores : ∀ i b, (p.instr i).place = .inBlock b → (p.instr i).op = .store →
    (p.instr i).operands.length = 2

/-- Within a block, an instruction is defined before it is used. -/
def Program.Ordered (p : Program) : Prop :=
  ∀ i d b, (p.instr i).place = .inBlock b → (p.instr d).place = .inBlock b →
    some (.instr d) ∈ (p.instr i).operands → d < i

namespace Program

variable {p : Program}

/-! ### Changing operands -/

theorem SameButOperands.usable {q : Program} (h : SameButOperands p q) {f : FuncId} {v : Value} :
    q.Usable f v ↔ p.Usable f v := by
  cases v with
  | instr d => rw [usable_instr, usable_instr, h.place, h.ty]
  | _ => exact Iff.rfl

theorem Coherent.mem_funcInstrs (h : p.Coherent) {i : InstrId} {f : FuncId} :
    i ∈ p.funcInstrs f ↔ ∃ b, (p.instr i).place = .inBlock b ∧ b.func = f := by
  rw [Program.mem_funcInstrs]
  constructor
  · rintro ⟨k, hk⟩
    exact ⟨_, (h.listed _ i).mp hk, rfl⟩
  · rintro ⟨⟨f', k⟩, hb, rfl⟩
    exact ⟨k, (h.listed _ i).mpr hb⟩

/-- The rules do not depend on which operands there are, as long as they are usable. -/
theorem Coherent.of_operands {q : Program} (h : p.Coherent) (hq : SameButOperands p q)
    (hexact : q.UsesExact) (hops : ∀ i, (∀ b, (p.instr i).place ≠ .inBlock b) →
      (q.instr i).operands = [])
    (husable : ∀ i b, (p.instr i).place = .inBlock b → ∀ v ∈ (q.instr i).operands,
      v ∈ (p.instr i).operands ∨ ∃ w, v = some w ∧ p.Usable b.func w) : q.Coherent where
  toArranged := h.toArranged.of_same hq
  exact := hexact
  increasing b := by
    rw [block_congr hq.funcs]
    exact h.increasing b
  bare i hi := by
    rw [hq.place] at hi
    exact hops i hi
  usable i b hi v hv := by
    rw [hq.place] at hi
    have husable' : ∃ w, v = some w ∧ p.Usable b.func w :=
      (husable i b hi v hv).elim (h.usable i b hi v) id
    obtain ⟨w, hw, hu⟩ := husable'
    exact ⟨w, hw, hq.usable.mpr hu⟩
  void i b hi hop := by
    rw [hq.place] at hi
    rw [hq.op] at hop
    rw [hq.ty]
    exact h.void i b hi hop
  last b i hi hop := by
    rw [block_congr hq.funcs] at hi ⊢
    rw [hq.op] at hop
    exact h.last b i hi hop
  targets i b hi := by
    rw [hq.place] at hi
    rw [hq.targets, func_congr hq.funcs]
    exact h.targets i b hi
  named f := by
    rw [func_congr hq.funcs]
    exact h.named f

/-- As long as the operands are usable and as many as before. -/
theorem WellFormed.of_operands {q : Program} (h : p.WellFormed) (hq : SameButOperands p q)
    (hexact : q.UsesExact)
    (hlength : ∀ i, (q.instr i).operands.length = (p.instr i).operands.length)
    (husable : ∀ i b, (p.instr i).place = .inBlock b → ∀ v ∈ (q.instr i).operands,
      v ∈ (p.instr i).operands ∨ ∃ w, v = some w ∧ p.Usable b.func w) : q.WellFormed where
  toCoherent := by
    refine h.toCoherent.of_operands hq hexact (fun i hi => ?_) husable
    rw [← List.length_eq_zero_iff, hlength, h.bare i hi]
    rfl
  stores i b hi hop := by
    rw [hq.place] at hi
    rw [hq.op] at hop
    rw [hlength]
    exact h.stores i b hi hop

theorem Ordered.of_operands {q : Program} (h : p.Ordered) (hq : SameButOperands p q)
    (hops : ∀ i d b, (p.instr i).place = .inBlock b → (p.instr d).place = .inBlock b →
      some (.instr d) ∈ (q.instr i).operands → some (.instr d) ∈ (p.instr i).operands ∨ d < i) :
    q.Ordered := by
  intro i d b hi hd hmem
  rw [hq.place] at hi hd
  exact (hops i d b hi hd hmem).elim (h i d b hi hd) id

theorem sameButOperands_redirect (p : Program) (old new : Value) :
    SameButOperands p (p.redirect old new) where
  funcs := funcs_redirect p old new
  links := by
    obtain ⟨is, us, heq⟩ := p.exists_redirect old new
    rw [heq]
  instr i := by
    obtain ⟨ops, heq, -⟩ := exists_instr_redirect p old new i
    exact ⟨ops, heq⟩

theorem sameButOperands_replaceOperand (p : Program) (slot : Use) (v : Value) :
    SameButOperands p (p.replaceOperand slot v) where
  funcs := funcs_replaceOperand p slot v
  links := by
    obtain ⟨is, us, heq⟩ := p.exists_replaceOperand slot v
    rw [heq]
  instr i := by
    rw [instr_replaceOperand]
    split <;> exact ⟨_, rfl⟩

/-- What a substitution leaves in an instruction: what was there, or the new value in an
instruction that used the old one. -/
theorem UsesExact.mem_operands_redirect (h : p.UsesExact) {old new : Value} {i : InstrId}
    {v : Option Value} (hv : v ∈ ((p.redirect old new).instr i).operands) :
    v ∈ (p.instr i).operands ∨ v = some new ∧ some old ∈ (p.instr i).operands := by
  rw [h.instr_redirect, Instr.substitute, List.mem_map] at hv
  obtain ⟨w, hw, rfl⟩ := hv
  unfold substituteIn
  split
  · next hold =>
    subst hold
    exact .inr ⟨rfl, hw⟩
  · exact .inl hw

theorem length_operands_redirect (p : Program) (old new : Value) (i : InstrId) :
    ((p.redirect old new).instr i).operands.length = (p.instr i).operands.length := by
  obtain ⟨ops, heq, hlength⟩ := exists_instr_redirect p old new i
  rw [heq]
  exact hlength

/-- A value may be replaced by one that is usable wherever the value is used. -/
theorem WellFormed.redirect (h : p.WellFormed) {old new : Value}
    (hnew : ∀ i b, (p.instr i).place = .inBlock b → some old ∈ (p.instr i).operands →
      p.Usable b.func new) : (p.redirect old new).WellFormed := by
  refine h.of_operands (sameButOperands_redirect p old new) (h.exact.redirect old new)
    (length_operands_redirect p old new) fun i b hi v hv => ?_
  rcases h.exact.mem_operands_redirect hv with hv | ⟨rfl, hold⟩
  · exact .inl hv
  · exact .inr ⟨new, rfl, hnew i b hi hold⟩

/-- An operand may be replaced by a value that is usable there. -/
theorem WellFormed.replaceOperand (h : p.WellFormed) {slot : Use} {v : Value}
    (hslot : slot.index < (p.instr slot.user).operands.length)
    (hv : ∀ b, (p.instr slot.user).place = .inBlock b → p.Usable b.func v) :
    (p.replaceOperand slot v).WellFormed := by
  refine h.of_operands (sameButOperands_replaceOperand p slot v) (h.exact.replaceOperand hslot v)
    (fun i => ?_) fun i b hi w hw => ?_
  · rw [instr_replaceOperand]
    split
    · exact List.length_set
    · rfl
  · rw [instr_replaceOperand] at hw
    split at hw
    · next huser =>
      subst huser
      rcases List.mem_or_eq_of_mem_set hw with hw | rfl
      · exact .inl hw
      · exact .inr ⟨v, rfl, hv b hi⟩
    · exact .inl hw

/-- Constants can always be used. -/
theorem WellFormed.redirect_const (h : p.WellFormed) (old : Value) (c : ConstId) :
    (p.redirect old (.const c)).WellFormed :=
  h.redirect fun _ _ _ _ => trivial

theorem WellFormed.withConsts (h : p.WellFormed) (cs : Table Const) :
    ({ p with consts := cs } : Program).WellFormed :=
  { h with toArranged := h.of_blocks (fun _ => rfl) rfl (fun _ => rfl) fun _ => id }

/-- A constant takes a place from what was there before, so the order stays. -/
theorem Ordered.redirect_const (h : p.Ordered) (hexact : p.UsesExact) (old : Value)
    (c : ConstId) : (p.redirect old (.const c)).Ordered := by
  refine h.of_operands (sameButOperands_redirect p old (.const c)) fun i d _ _ _ hd => ?_
  rcases hexact.mem_operands_redirect hd with hd | ⟨heq, -⟩
  · exact .inl hd
  · cases heq

/-! ### Erasing -/

theorem getLast?_erase {x y : Nat} {l : List Nat} (hne : y ≠ x) (h : l.getLast? = some x) :
    (l.erase y).getLast? = some x := by
  obtain ⟨front, rfl⟩ := List.getLast?_eq_some_iff.mp h
  rw [List.erase_append]
  split
  · exact List.getLast?_concat
  · rw [List.erase_of_not_mem (by simpa using hne)]
    exact List.getLast?_concat

/-- An instruction that nobody uses may be erased. -/
theorem WellFormed.detach (h : p.WellFormed) {i : InstrId} (hi : p.usesOf (.instr i) = []) :
    (p.detach i).WellFormed := by
  have hother : ∀ {j b}, ((p.detach i).instr j).place = .inBlock b →
      i ≠ j ∧ (p.detach i).instr j = p.instr j := by
    intro j b hj
    rw [instr_detach] at hj
    split at hj
    · cases hj
    · next hne => exact ⟨hne, by rw [instr_detach, if_neg hne]⟩
  have hlisted := h.mem_instrs_detach i
  refine {
    toArranged := h.toArranged.detach i
    exact := h.exact.detach i
    increasing := ?_, bare := ?_, usable := ?_, void := ?_, last := ?_, targets := ?_
    named := ?_, stores := ?_ }
  · intro b
    rw [h.instrs_detach]
    exact (h.increasing b).filter _
  · intro j hj
    rw [instr_detach] at hj ⊢
    split
    · rfl
    · next hne =>
      rw [if_neg hne] at hj
      exact h.bare j hj
  · intro j b hj v hv
    obtain ⟨hne, heq⟩ := hother hj
    rw [heq] at hj hv
    obtain ⟨w, rfl, hw⟩ := h.usable j b hj v hv
    refine ⟨w, rfl, ?_⟩
    cases w with
    | instr d =>
      -- The operand is used, so it is not the erased instruction.
      have hd : i ≠ d := by
        intro hid
        subst hid
        exact h.exact.not_mem_operands hi j hv
      rw [usable_instr, instr_detach, if_neg hd]
      exact hw
    | _ => trivial
  · intro j b hj
    have heq := (hother hj).2
    rw [heq] at hj ⊢
    exact h.void j b hj
  · intro b j hj hop
    obtain ⟨hne, heq⟩ := hother ((hlisted b j).mp hj)
    have hj' : (p.instr j).place = .inBlock b := heq ▸ (hlisted b j).mp hj
    rw [heq] at hop
    have hlast := h.last b j ((h.listed b j).mpr hj') hop
    rw [h.block_detach]
    split
    · exact getLast?_erase hne hlast
    · exact hlast
  · intro j b hj
    have heq := (hother hj).2
    obtain ⟨blocks, hsize, hfunc⟩ := p.func_detach i b.func
    rw [heq] at hj ⊢
    rw [hfunc, hsize]
    exact h.targets j b hj
  · intro f
    obtain ⟨blocks, -, hfunc⟩ := p.func_detach i f
    rw [hfunc]
    exact h.named f
  · intro j b hj
    have heq := (hother hj).2
    rw [heq] at hj ⊢
    exact h.stores j b hj

theorem Ordered.detach (h : p.Ordered) (i : InstrId) : (p.detach i).Ordered := by
  intro j d b hj hd hmem
  rw [instr_detach] at hj hd hmem
  split at hj
  · cases hj
  · next hne =>
    rw [if_neg hne] at hmem
    split at hd
    · cases hd
    · exact h j d b hj hd hmem

end Program

end Midend
