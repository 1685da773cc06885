import Midend.Proofs.Program.Links

/-!
# Use-lists against operand slots

Every value lists the operand slots that hold it.  The lists are not computed from the slots but
kept beside them, and each operation that writes a slot has to write the lists as well.  Here the
operations on slots get their meaning: what becomes of each instruction, what becomes of each
use-list, and that an exact record stays exact.  So does one that may lack uses but has none too many.

The operation behind most rewriting, moving all uses of a value to another one, walks through the
use-list of the old value.  `UsesExact.instr_redirect` says what that amounts to when the record is exact: the
new value is substituted for the old one in every instruction of the program.

## Main definitions

* `Program.UsesExact`: a slot is listed once by the value it holds, and by no other value.
* `Program.UsesUpTo`: the same up to a tolerance for slots that are not listed.
* `Program.redirect`: moving all uses, as a function on programs.

## Main results

* `UsesUpTo.replaceOperand`, `UsesUpTo.dropOperands`, `UsesUpTo.assignOperands`, `UsesUpTo.redirect`,
  `UsesUpTo.detach`: the operations keep the record, and so does `UsesExact`.
* `instr_redirect_of_mem_iff`, `UsesExact.instr_redirect`: moving all uses is substitution.
-/

namespace Midend

namespace Program

/-- The use-lists are the inverse of the operand relation: a slot occurs once in the list of the
value it holds, and in no other list. -/
def UsesExact (p : Program) : Prop :=
  ∀ v slot, (p.usesOf v).count slot = if p.readSlot slot = some v then 1 else 0

/-- A way to compare how often a slot is listed with how often it should be, where it may never be
listed too often. -/
structure Tolerance (R : Nat → Nat → Prop) : Prop where
  /-- Not too often. -/
  le : ∀ {n m}, R n m → n ≤ m
  /-- As often as it should be. -/
  refl : ∀ n, R n n

theorem Tolerance.eq : Tolerance (· = ·) := ⟨Nat.le_of_eq, fun _ => rfl⟩

theorem Tolerance.atMost : Tolerance (· ≤ ·) := ⟨id, Nat.le_refl⟩

/-- The use-lists are the inverse of the operand relation up to a tolerance. -/
def UsesUpTo (R : Nat → Nat → Prop) (p : Program) : Prop :=
  ∀ v slot, R ((p.usesOf v).count slot) (if p.readSlot slot = some v then 1 else 0)

/-! ### Reading after writing -/

variable {p : Program}

theorem instr_modifyInstr (p : Program) (i j : InstrId) (g : Instr → Instr) :
    (p.modifyInstr i g).instr j = if i = j then g (p.instr i) else p.instr j :=
  Table.get_modify p.instrs i j g

@[simp] theorem instr_modifyInstr_self (p : Program) (i : InstrId) (g : Instr → Instr) :
    (p.modifyInstr i g).instr i = g (p.instr i) := by
  rw [instr_modifyInstr, if_pos rfl]

theorem instr_modifyInstr_of_ne {i j : InstrId} (h : i ≠ j) (g : Instr → Instr) :
    (p.modifyInstr i g).instr j = p.instr j := by
  rw [instr_modifyInstr, if_neg h]

theorem instr_addInstr (p : Program) (x : Instr) (j : InstrId) :
    (p.addInstr x).2.instr j = if j = p.instrs.size then x else p.instr j :=
  Table.get_push p.instrs x j

theorem instr_attach (p : Program) (b : BlockRef) (i : InstrId) (place : List InstrId → List InstrId)
    (j : InstrId) : (p.attach b i place).instr j = if i = j then
      { p.instr i with id := (p.func b.func).lastId + 1, place := .inBlock b } else p.instr j :=
  instr_modifyInstr p i j _

@[simp] theorem instr_addUse (p : Program) (v : Value) (slot : Use) (i : InstrId) :
    (p.addUse v slot).instr i = p.instr i := rfl

theorem instr_writeSlot (p : Program) (slot : Use) (v : Option Value) (i : InstrId) :
    (p.writeSlot slot v).instr i = if slot.user = i then
      { p.instr slot.user with operands := (p.instr slot.user).operands.set slot.index v }
      else p.instr i :=
  instr_modifyInstr p slot.user i _

theorem usesOf_addUse (p : Program) (v w : Value) (slot : Use) :
    (p.addUse v slot).usesOf w = if v = w then p.usesOf v ++ [slot] else p.usesOf w :=
  UseLists.get_add p.uses v w slot

theorem usesOf_removeUse (p : Program) (v w : Value) (slot : Use) :
    (p.removeUse v slot).usesOf w = if v = w then (p.usesOf v).erase slot else p.usesOf w :=
  UseLists.get_remove p.uses v w slot

@[simp] theorem usesOf_modifyInstr (p : Program) (i : InstrId) (g : Instr → Instr) (w : Value) :
    (p.modifyInstr i g).usesOf w = p.usesOf w := rfl

@[simp] theorem usesOf_writeSlot (p : Program) (slot : Use) (v : Option Value) (w : Value) :
    (p.writeSlot slot v).usesOf w = p.usesOf w := rfl

/-- A slot as an entry of the list of operands. -/
theorem readSlot_mk (p : Program) (i : InstrId) (k : Nat) :
    p.readSlot ⟨i, k⟩ = ((p.instr i).operands[k]?).join := rfl

theorem readSlot_eq_some_iff {slot : Use} {v : Value} :
    p.readSlot slot = some v ↔ (p.instr slot.user).operands[slot.index]? = some (some v) :=
  Option.join_eq_some_iff

/-- A slot that holds a value is one of the slots of its instruction. -/
theorem mem_operands_of_readSlot {slot : Use} {v : Value} (h : p.readSlot slot = some v) :
    some v ∈ (p.instr slot.user).operands :=
  List.mem_of_getElem? (readSlot_eq_some_iff.mp h)

theorem exists_readSlot_of_mem {i : InstrId} {v : Value} (h : some v ∈ (p.instr i).operands) :
    ∃ k, p.readSlot ⟨i, k⟩ = some v := by
  obtain ⟨k, hk⟩ := List.getElem?_of_mem h
  exact ⟨k, readSlot_eq_some_iff.mpr hk⟩

/-- Programs with the same operands in every instruction and the same use-lists have the same
record. -/
theorem UsesUpTo.congr {R : Nat → Nat → Prop} {q : Program} (h : p.UsesUpTo R)
    (hops : ∀ i, (q.instr i).operands = (p.instr i).operands)
    (huses : ∀ v, q.usesOf v = p.usesOf v) : q.UsesUpTo R := by
  intro v slot
  have hread : q.readSlot slot = p.readSlot slot := by
    unfold readSlot
    rw [hops]
  rw [huses, hread]
  exact h v slot

theorem UsesExact.congr {q : Program} (h : p.UsesExact)
    (hops : ∀ i, (q.instr i).operands = (p.instr i).operands)
    (huses : ∀ v, q.usesOf v = p.usesOf v) : q.UsesExact :=
  UsesUpTo.congr (R := Eq) h hops huses

/-! ### Uses in an exact record -/

theorem UsesExact.mem_iff (h : p.UsesExact) {v : Value} {slot : Use} :
    slot ∈ p.usesOf v ↔ p.readSlot slot = some v := by
  rw [← List.count_pos_iff, h v slot]
  split
  · next hread => simp [hread]
  · next hread => simp [hread]

/-- An exact list has no slot twice. -/
theorem UsesExact.nodup (h : p.UsesExact) (v : Value) : (p.usesOf v).Nodup := by
  rw [List.nodup_iff_count]
  intro slot
  rw [h v slot]
  split <;> omega

/-- A value without uses stands in no slot. -/
theorem UsesExact.not_mem_operands (h : p.UsesExact) {v : Value} (hv : p.usesOf v = [])
    (i : InstrId) : some v ∉ (p.instr i).operands := by
  intro hmem
  obtain ⟨k, hk⟩ := exists_readSlot_of_mem hmem
  have : (⟨i, k⟩ : Use) ∈ p.usesOf v := h.mem_iff.mpr hk
  rw [hv] at this
  exact List.not_mem_nil this

/-! ### Uses in a record that may lack some -/

section Tolerant

variable {R : Nat → Nat → Prop}

theorem UsesUpTo.count_eq_zero (h : p.UsesUpTo R) (hR : Tolerance R) {v : Value} {slot : Use}
    (hread : p.readSlot slot ≠ some v) : (p.usesOf v).count slot = 0 := by
  have hcount := hR.le (h v slot)
  rw [if_neg hread] at hcount
  exact Nat.le_zero.mp hcount

theorem UsesUpTo.count_le_one (h : p.UsesUpTo R) (hR : Tolerance R) (v : Value) (slot : Use) :
    (p.usesOf v).count slot ≤ 1 := by
  have hcount := hR.le (h v slot)
  split at hcount <;> omega

/-- What a value lists does hold it. -/
theorem UsesUpTo.readSlot_of_mem (h : p.UsesUpTo R) (hR : Tolerance R) {v : Value} {slot : Use}
    (hmem : slot ∈ p.usesOf v) : p.readSlot slot = some v := by
  apply Classical.byContradiction
  intro hread
  exact absurd (h.count_eq_zero hR hread) (Nat.ne_of_gt (List.count_pos_iff.mpr hmem))

end Tolerant

section Operations

variable {R : Nat → Nat → Prop}

/-! ### One slot -/

theorem readSlot_writeSlot {slot : Use}
    (hslot : slot.index < (p.instr slot.user).operands.length) (v : Option Value) (u : Use) :
    (p.writeSlot slot v).readSlot u = if slot = u then v else p.readSlot u := by
  obtain ⟨i, k⟩ := slot
  obtain ⟨j, l⟩ := u
  rw [readSlot_mk, readSlot_mk, instr_writeSlot]
  by_cases hij : i = j
  · subst hij
    by_cases hkl : k = l
    · subst hkl
      simp [hslot]
    · simp [hkl]
  · simp [hij]

/-- Takes a slot out of the use-list of what it holds. -/
def vacate (p : Program) (slot : Use) : Program :=
  match p.readSlot slot with
  | some old => p.removeUse old slot
  | none => p

theorem replaceOperand_eq (p : Program) (slot : Use) (v : Value) :
    p.replaceOperand slot v = ((p.vacate slot).writeSlot slot (some v)).addUse v slot := rfl

@[simp] theorem instr_vacate (p : Program) (slot : Use) (i : InstrId) :
    (p.vacate slot).instr i = p.instr i := by
  unfold vacate
  split <;> rfl

/-- A slot that was taken out is listed nowhere, all others as before. -/
theorem UsesUpTo.count_vacate (h : p.UsesUpTo R) (hR : Tolerance R) (slot u : Use) (w : Value) :
    ((p.vacate slot).usesOf w).count u = if slot = u then 0 else (p.usesOf w).count u := by
  unfold vacate
  split
  · next old hold =>
    rw [usesOf_removeUse]
    by_cases hw : old = w
    · subst hw
      rw [if_pos rfl, List.count_erase]
      by_cases hu : slot = u
      · subst hu
        have hone := h.count_le_one hR old slot
        simp
        omega
      · simp [hu]
    · rw [if_neg hw]
      by_cases hu : slot = u
      · subst hu
        have hread : p.readSlot slot ≠ some w := by
          rw [hold]
          simpa using hw
        rw [if_pos rfl, h.count_eq_zero hR hread]
      · rw [if_neg hu]
  · next hnone =>
    by_cases hu : slot = u
    · subst hu
      rw [if_pos rfl, h.count_eq_zero hR (by simp [hnone])]
    · rw [if_neg hu]

theorem UsesUpTo.replaceOperand (h : p.UsesUpTo R) (hR : Tolerance R) {slot : Use}
    (hslot : slot.index < (p.instr slot.user).operands.length) (v : Value) :
    (p.replaceOperand slot v).UsesUpTo R := by
  intro w u
  have hcount := h.count_vacate hR slot u w
  have hread : (p.replaceOperand slot v).readSlot u =
      if slot = u then some v else p.readSlot u := by
    have hlen : slot.index < ((p.vacate slot).instr slot.user).operands.length := by
      rw [instr_vacate]
      exact hslot
    have hvacate : (p.vacate slot).readSlot u = p.readSlot u := by
      unfold readSlot
      rw [instr_vacate]
    rw [← hvacate]
    exact readSlot_writeSlot hlen (some v) u
  rw [hread, replaceOperand_eq, usesOf_addUse, usesOf_writeSlot, usesOf_writeSlot]
  by_cases hu : slot = u
  · subst hu
    rw [if_pos rfl] at hcount
    by_cases hv : v = w
    · subst hv
      simpa [hcount] using hR.refl 1
    · simpa [hcount, hv] using hR.refl 0
  · rw [if_neg hu] at hcount
    have hsame : (if v = w then (p.vacate slot).usesOf v ++ [slot] else (p.vacate slot).usesOf w).count u =
        (p.usesOf w).count u := by
      rw [← hcount]
      by_cases hv : v = w
      · subst hv
        simp [List.count_append, hu]
      · rw [if_neg hv]
    rw [if_neg hu, hsame]
    exact h w u

theorem UsesExact.replaceOperand (h : p.UsesExact) {slot : Use}
    (hslot : slot.index < (p.instr slot.user).operands.length) (v : Value) :
    (p.replaceOperand slot v).UsesExact :=
  UsesUpTo.replaceOperand h .eq hslot v

/-- A value that lists no uses gets none when another one is put into a slot. -/
theorem usesOf_replaceOperand_eq_nil {slot : Use} {v w : Value} (hne : v ≠ w)
    (hw : p.usesOf w = []) : (p.replaceOperand slot v).usesOf w = [] := by
  rw [replaceOperand_eq, usesOf_addUse, if_neg hne, usesOf_writeSlot]
  unfold vacate
  split
  · rw [usesOf_removeUse]
    split
    · next hold =>
      rw [hold, hw]
      rfl
    · exact hw
  · exact hw

theorem instr_replaceOperand (p : Program) (slot : Use) (v : Value) (i : InstrId) :
    (p.replaceOperand slot v).instr i = if slot.user = i then
      { p.instr i with operands := (p.instr i).operands.set slot.index (some v) }
      else p.instr i := by
  rw [replaceOperand_eq, instr_addUse, instr_writeSlot]
  split
  · next h => rw [instr_vacate, h]
  · rw [instr_vacate]

/-! ### All slots of an instruction -/

@[simp] theorem instr_registerFrom (i : InstrId) (k : Nat) (vs : List (Option Value))
    (p : Program) (j : InstrId) : (p.registerFrom i k vs).instr j = p.instr j := by
  induction vs generalizing p k with
  | nil => rfl
  | cons v vs ih =>
    cases v with
    | none => exact ih (k + 1) p
    | some v => exact ih (k + 1) (p.addUse v ⟨i, k⟩)

@[simp] theorem instr_unregisterFrom (i : InstrId) (k : Nat) (vs : List (Option Value))
    (p : Program) (j : InstrId) : (p.unregisterFrom i k vs).instr j = p.instr j := by
  induction vs generalizing p k with
  | nil => rfl
  | cons v vs ih =>
    cases v with
    | none => exact ih (k + 1) p
    | some v => exact ih (k + 1) (p.removeUse v ⟨i, k⟩)

/-- Is `u` the slot of `w` among the slots of `i` from the index `k` on that hold `vs`? -/
def holdsFrom (i : InstrId) (k : Nat) (vs : List (Option Value)) (w : Value) (u : Use) : Bool :=
  u.user = i && k ≤ u.index && vs[u.index - k]? = some (some w)

theorem holdsFrom_nil (i : InstrId) (k : Nat) (w : Value) (u : Use) :
    holdsFrom i k [] w u = false := by
  simp [holdsFrom]

/-- The slot at `k` is the first one; the others belong to the rest of the list. -/
theorem holdsFrom_cons (i : InstrId) (k : Nat) (v : Option Value) (vs : List (Option Value))
    (w : Value) (u : Use) :
    holdsFrom i k (v :: vs) w u =
      (((⟨i, k⟩ : Use) = u && v = some w) || holdsFrom i (k + 1) vs w u) := by
  obtain ⟨j, l⟩ := u
  unfold holdsFrom
  rcases Nat.lt_trichotomy k l with hkl | hkl | hkl
  · have hsub : l - k = (l - (k + 1)) + 1 := by omega
    have hne : k ≠ l := by omega
    have hsucc : k + 1 ≤ l := hkl
    simp [hsub, hne, hsucc, Nat.le_of_lt hkl]
  · subst hkl
    have hnle : ¬ k + 1 ≤ k := by omega
    by_cases hij : i = j
    · simp [hij, hnle]
    · simp [hij, Ne.symm hij]
  · have hnle : ¬ k ≤ l := by omega
    have hnlt : ¬ k + 1 ≤ l := by omega
    have hne : k ≠ l := by omega
    simp [hnle, hnlt, hne]

/-- The later slots have other indices. -/
theorem holdsFrom_succ (i : InstrId) (k : Nat) (vs : List (Option Value)) (w : Value) :
    holdsFrom i (k + 1) vs w ⟨i, k⟩ = false := by
  simp [holdsFrom, Nat.not_succ_le_self]

theorem count_registerFrom (i : InstrId) (w : Value) (u : Use) (vs : List (Option Value))
    (k : Nat) (p : Program) :
    ((p.registerFrom i k vs).usesOf w).count u =
      (p.usesOf w).count u + (holdsFrom i k vs w u).toNat := by
  induction vs generalizing p k with
  | nil => simp [registerFrom, holdsFrom_nil]
  | cons v vs ih =>
    rw [holdsFrom_cons]
    cases v with
    | none => simpa [registerFrom] using ih (k + 1) p
    | some v =>
      rw [registerFrom, ih, usesOf_addUse]
      by_cases hu : (⟨i, k⟩ : Use) = u
      · by_cases hv : v = w
        · subst hv
          simp [← hu, holdsFrom_succ, List.count_append]
        · simp [hu, hv]
      · by_cases hv : v = w
        · subst hv
          simp [hu, List.count_append]
        · simp [hu, hv]

theorem count_unregisterFrom (i : InstrId) (w : Value) (u : Use) (vs : List (Option Value))
    (k : Nat) (p : Program) :
    ((p.unregisterFrom i k vs).usesOf w).count u =
      (p.usesOf w).count u - (holdsFrom i k vs w u).toNat := by
  induction vs generalizing p k with
  | nil => simp [unregisterFrom, holdsFrom_nil]
  | cons v vs ih =>
    rw [holdsFrom_cons]
    cases v with
    | none => simpa [unregisterFrom] using ih (k + 1) p
    | some v =>
      rw [unregisterFrom, ih, usesOf_removeUse]
      by_cases hu : (⟨i, k⟩ : Use) = u
      · by_cases hv : v = w
        · subst hv
          simp [← hu, holdsFrom_succ]
        · simp [hu, hv]
      · by_cases hv : v = w
        · subst hv
          simp [hu, List.count_erase]
        · simp [hu, hv]

/-- Giving up slots adds no use. -/
theorem usesOf_unregisterFrom_sublist (i : InstrId) (w : Value) (vs : List (Option Value)) (k : Nat)
    (p : Program) : ((p.unregisterFrom i k vs).usesOf w).Sublist (p.usesOf w) := by
  induction vs generalizing p k with
  | nil => exact .refl _
  | cons v vs ih =>
    cases v with
    | none => exact ih (k + 1) p
    | some v =>
      refine (ih (k + 1) (p.removeUse v ⟨i, k⟩)).trans ?_
      rw [usesOf_removeUse]
      split
      · next hv =>
        rw [← hv]
        exact List.erase_sublist
      · exact .refl _

/-- The slots of an instruction, seen from its list of operands. -/
theorem holdsFrom_operands (p : Program) (i : InstrId) (w : Value) (u : Use) :
    holdsFrom i 0 (p.instr i).operands w u = (u.user = i && p.readSlot u = some w) := by
  unfold holdsFrom
  by_cases hi : u.user = i
  · subst hi
    simp [readSlot_eq_some_iff]
  · simp [hi]

theorem instr_dropOperands (p : Program) (i j : InstrId) :
    (p.dropOperands i).instr j =
      if i = j then { p.instr i with operands := [] } else p.instr j := by
  rw [dropOperands, instr_modifyInstr, instr_unregisterFrom, instr_unregisterFrom]

theorem readSlot_dropOperands (p : Program) (i : InstrId) (u : Use) :
    (p.dropOperands i).readSlot u = if i = u.user then none else p.readSlot u := by
  unfold readSlot
  rw [instr_dropOperands]
  split <;> simp

theorem UsesUpTo.dropOperands (h : p.UsesUpTo R) (hR : Tolerance R) (i : InstrId) :
    (p.dropOperands i).UsesUpTo R := by
  intro w u
  have hcount : ((p.dropOperands i).usesOf w).count u =
      (p.usesOf w).count u - (u.user = i && p.readSlot u = some w : Bool).toNat := by
    rw [Program.dropOperands, usesOf_modifyInstr, count_unregisterFrom, holdsFrom_operands]
  rw [hcount, readSlot_dropOperands]
  by_cases hi : i = u.user
  · -- Whatever the slot held has given it up.
    have hgone : (p.usesOf w).count u - (u.user = i && p.readSlot u = some w : Bool).toNat = 0 := by
      by_cases hw : p.readSlot u = some w
      · have hone := h.count_le_one hR w u
        simp only [hi, hw, decide_true, Bool.and_self, Bool.toNat_true]
        omega
      · rw [h.count_eq_zero hR hw, Nat.zero_sub]
    rw [hgone, if_pos hi, if_neg (by simp)]
    exact hR.refl 0
  · simpa [hi, Ne.symm hi] using h w u

theorem UsesExact.dropOperands (h : p.UsesExact) (i : InstrId) : (p.dropOperands i).UsesExact :=
  UsesUpTo.dropOperands h .eq i

theorem instr_assignOperands (p : Program) (i : InstrId) (vs : List (Option Value))
    (j : InstrId) : (p.assignOperands i vs).instr j =
      if i = j then { p.instr i with operands := vs } else p.instr j := by
  rw [assignOperands, instr_registerFrom, instr_modifyInstr]

theorem readSlot_assignOperands (p : Program) (i : InstrId) (vs : List (Option Value))
    (u : Use) : (p.assignOperands i vs).readSlot u =
      if i = u.user then vs[u.index]?.join else p.readSlot u := by
  unfold readSlot
  rw [instr_assignOperands]
  split <;> rfl

theorem UsesUpTo.assignOperands (h : p.UsesUpTo R) (hR : Tolerance R) {i : InstrId}
    (hi : (p.instr i).operands = []) (vs : List (Option Value)) :
    (p.assignOperands i vs).UsesUpTo R := by
  intro w u
  have hcount : ((p.assignOperands i vs).usesOf w).count u =
      (p.usesOf w).count u + (holdsFrom i 0 vs w u).toNat := by
    rw [Program.assignOperands, count_registerFrom, usesOf_modifyInstr]
  rw [hcount, readSlot_assignOperands]
  by_cases hu : i = u.user
  · have hnone : p.readSlot u ≠ some w := by simp [readSlot, ← hu, hi]
    rw [h.count_eq_zero hR hnone]
    by_cases hv : vs[u.index]? = some (some w)
    · simpa [holdsFrom, hu, hv] using hR.refl 1
    · have hjoin : vs[u.index]?.join ≠ some w := by simpa [Option.join_eq_some_iff] using hv
      simpa [holdsFrom, hu, hv, hjoin] using hR.refl 0
  · simpa [holdsFrom, hu, Ne.symm hu] using h w u

theorem UsesExact.assignOperands (h : p.UsesExact) {i : InstrId}
    (hi : (p.instr i).operands = []) (vs : List (Option Value)) :
    (p.assignOperands i vs).UsesExact :=
  UsesUpTo.assignOperands h .eq hi vs

end Operations

/-! ### All slots of a value -/

/-- Lets the given slots hold a value, which lists them as uses. -/
def moveSlots (p : Program) (new : Value) : List Use → Program
  | [] => p
  | slot :: slots => ((p.writeSlot slot (some new)).addUse new slot).moveSlots new slots

/-- Lets every slot that holds `old` hold `new` instead. -/
def redirect (p : Program) (old new : Value) : Program :=
  if old = new then p
  else { p with uses := p.uses.set old [] }.moveSlots new (p.usesOf old)

theorem moveUses_run (new : Value) (slots : List Use) (p : Program) :
    moveUses (some new) slots p = (.ok (), p.moveSlots new slots) := by
  induction slots generalizing p with
  | nil => rfl
  | cons slot slots ih => exact ih _

theorem replaceAllUses_run (old new : Value) (p : Program) :
    replaceAllUses (some old) (some new) p = (.ok (), p.redirect old new) := by
  unfold redirect
  by_cases h : old = new
  · subst h
    rw [if_pos rfl]
    unfold replaceAllUses
    rw [if_pos rfl]
    rfl
  · have hne : (some old : Option Value) ≠ some new := by simpa using h
    rw [if_neg h]
    unfold replaceAllUses
    rw [if_neg hne]
    exact moveUses_run new (p.usesOf old) _

theorem usesOf_moveSlots (new w : Value) (slots : List Use) (p : Program) :
    (p.moveSlots new slots).usesOf w =
      if new = w then p.usesOf new ++ slots else p.usesOf w := by
  induction slots generalizing p with
  | nil =>
    rw [moveSlots]
    split
    · next h => rw [h, List.append_nil]
    · rfl
  | cons slot slots ih =>
    rw [moveSlots, ih, usesOf_addUse, usesOf_addUse, if_pos rfl, usesOf_writeSlot,
      usesOf_writeSlot]
    split
    · rw [List.append_assoc, List.singleton_append]
    · rfl

/-- The operands of an instruction after its slots among `slots` got a value. -/
theorem instr_moveSlots (new : Value) (i : InstrId) (slots : List Use) (p : Program) :
    (p.moveSlots new slots).instr i =
      { p.instr i with
        operands := (p.instr i).operands.mapIdx fun k v =>
          if ⟨i, k⟩ ∈ slots then some new else v } := by
  induction slots generalizing p with
  | nil =>
    have hid : ((p.instr i).operands.mapIdx fun k v =>
        if (⟨i, k⟩ : Use) ∈ ([] : List Use) then some new else v) = (p.instr i).operands := by
      refine List.ext_getElem? fun k => ?_
      simp
    rw [hid]
    rfl
  | cons slot slots ih =>
    obtain ⟨j, l⟩ := slot
    rw [moveSlots, ih, instr_addUse, instr_writeSlot]
    by_cases hji : j = i
    · subst hji
      simp only [if_pos]
      congr 1
      refine List.ext_getElem? fun k => ?_
      simp only [List.getElem?_mapIdx, List.getElem?_set, List.mem_cons]
      by_cases hlk : l = k
      · subst hlk
        by_cases hl : l < (p.instr j).operands.length
        · simp [hl]
        · simp [hl]
      · have hne : (⟨j, k⟩ : Use) ≠ ⟨j, l⟩ := by simpa using Ne.symm hlk
        simp [hlk, hne]
    · have hne : ∀ k, (⟨i, k⟩ : Use) ≠ ⟨j, l⟩ := fun k h => hji (congrArg Use.user h).symm
      simp [hji, hne]

end Program

/-- Puts `new` for `old` in one slot. -/
def substituteIn (old new : Value) (v : Option Value) : Option Value :=
  if v = some old then some new else v

/-- Puts `new` for `old` in every slot of an instruction. -/
def Instr.substitute (i : Instr) (old new : Value) : Instr :=
  { i with operands := i.operands.map (substituteIn old new) }

namespace Program

variable {p : Program}

/-- The use-lists after all uses of a value have moved. -/
theorem usesOf_redirect (p : Program) {old new : Value} (hne : old ≠ new) (w : Value) :
    (p.redirect old new).usesOf w = if new = w then p.usesOf new ++ p.usesOf old
      else if old = w then [] else p.usesOf w := by
  have hcleared : ∀ w, ({ p with uses := p.uses.set old [] } : Program).usesOf w =
      if old = w then [] else p.usesOf w := fun w => UseLists.get_set p.uses old w []
  rw [redirect, if_neg hne, usesOf_moveSlots, hcleared, hcleared, if_neg hne]

/-- The value that was replaced lists no uses any more. -/
theorem usesOf_redirect_self (p : Program) {old new : Value} (hne : old ≠ new) :
    (p.redirect old new).usesOf old = [] := by
  rw [usesOf_redirect p hne, if_neg (Ne.symm hne), if_pos rfl]

/-- Whatever the use-lists say, only operands change, and their number stays. -/
theorem exists_instr_redirect (p : Program) (old new : Value) (i : InstrId) :
    ∃ ops, (p.redirect old new).instr i = { p.instr i with operands := ops } ∧
      ops.length = (p.instr i).operands.length := by
  unfold redirect
  split
  · exact ⟨_, rfl, rfl⟩
  · rw [instr_moveSlots]
    exact ⟨_, rfl, List.length_mapIdx⟩

/-- **Moving all uses is substitution** in an instruction whose slots are listed by the old value just
if they hold it. -/
theorem instr_redirect_of_mem_iff {old : Value} {i : InstrId}
    (h : ∀ k, (⟨i, k⟩ : Use) ∈ p.usesOf old ↔ p.readSlot ⟨i, k⟩ = some old) (new : Value) :
    (p.redirect old new).instr i = (p.instr i).substitute old new := by
  have hslot : ∀ k v, (p.instr i).operands[k]? = some v →
      (if (⟨i, k⟩ : Use) ∈ p.usesOf old then some new else v) = substituteIn old new v := by
    intro k v hk
    have hmem : (⟨i, k⟩ : Use) ∈ p.usesOf old ↔ v = some old := by
      rw [h, readSlot_eq_some_iff, hk, Option.some.injEq]
    unfold substituteIn
    by_cases hv : v = some old
    · rw [if_pos (hmem.mpr hv), if_pos hv]
    · rw [if_neg (mt hmem.mp hv), if_neg hv]
  unfold redirect Instr.substitute
  split
  · next heq =>
    subst heq
    have hid : substituteIn old old = id := by
      funext v
      unfold substituteIn
      split
      · next hv => exact hv.symm
      · rfl
    rw [hid, List.map_id]
  · have hinstr : ({ p with uses := p.uses.set old [] } : Program).instr i = p.instr i := rfl
    have hops : ((p.instr i).operands.mapIdx fun k v =>
        if (⟨i, k⟩ : Use) ∈ p.usesOf old then some new else v) =
        (p.instr i).operands.map (substituteIn old new) := by
      refine List.ext_getElem? fun k => ?_
      rw [List.getElem?_mapIdx, List.getElem?_map]
      cases hk : (p.instr i).operands[k]? with
      | none => rfl
      | some v => exact congrArg some (hslot k v hk)
    rw [instr_moveSlots, hinstr, hops]

/-- An exact use-list names exactly the slots that hold the value, so nothing is left behind and
nothing else is touched. -/
theorem UsesExact.instr_redirect (h : p.UsesExact) (old new : Value) (i : InstrId) :
    (p.redirect old new).instr i = (p.instr i).substitute old new :=
  instr_redirect_of_mem_iff (fun _ => h.mem_iff) new

/-- What a slot holds after all uses of a value have moved: the listed ones hold the new value. -/
theorem UsesUpTo.readSlot_redirect {R : Nat → Nat → Prop} (h : p.UsesUpTo R) (hR : Tolerance R)
    {old new : Value} (hne : old ≠ new) (u : Use) :
    (p.redirect old new).readSlot u = if u ∈ p.usesOf old then some new else p.readSlot u := by
  have hinstr : ({ p with uses := p.uses.set old [] } : Program).instr u.user = p.instr u.user := rfl
  unfold readSlot
  rw [redirect, if_neg hne, instr_moveSlots, hinstr, List.getElem?_mapIdx]
  by_cases hu : u ∈ p.usesOf old
  · -- A listed slot is there.
    have hslot := readSlot_eq_some_iff.mp (h.readSlot_of_mem hR hu)
    simp [hslot, hu]
  · cases (p.instr u.user).operands[u.index]? with
    | none => simp [hu]
    | some v => simp [hu]

theorem UsesUpTo.redirect {R : Nat → Nat → Prop} (h : p.UsesUpTo R) (hR : Tolerance R)
    (old new : Value) : (p.redirect old new).UsesUpTo R := by
  by_cases heq : old = new
  · rw [Program.redirect, if_pos heq]
    exact h
  intro w u
  rw [h.readSlot_redirect hR heq, usesOf_redirect p heq]
  by_cases hu : u ∈ p.usesOf old
  · have hread := h.readSlot_of_mem hR hu
    have hone : (p.usesOf old).count u = 1 :=
      Nat.le_antisymm (h.count_le_one hR old u) (List.count_pos_iff.mpr hu)
    have hnone : ∀ v, v ≠ old → (p.usesOf v).count u = 0 := fun v hv =>
      h.count_eq_zero hR (by simpa [hread] using Ne.symm hv)
    rw [if_pos hu]
    by_cases hnew : new = w
    · -- The new value has gained the slot, which it did not list before.
      subst hnew
      rw [if_pos rfl, if_pos rfl, List.count_append, hone, hnone new (Ne.symm heq)]
      exact hR.refl 1
    · have hother : some new ≠ some w := by simpa using hnew
      rw [if_neg hnew, if_neg hother]
      by_cases hold : old = w
      · rw [if_pos hold]
        exact hR.refl 0
      · rw [if_neg hold, hnone w (Ne.symm hold)]
        exact hR.refl 0
  · have hzero : (p.usesOf old).count u = 0 := List.count_eq_zero.mpr hu
    rw [if_neg hu]
    by_cases hnew : new = w
    · subst hnew
      rw [if_pos rfl, List.count_append, hzero]
      exact h new u
    · rw [if_neg hnew]
      by_cases hold : old = w
      · subst hold
        have hkept := h old u
        rw [hzero] at hkept
        rw [if_pos rfl, List.count_nil]
        exact hkept
      · rw [if_neg hold]
        exact h w u

theorem UsesExact.redirect (h : p.UsesExact) (old new : Value) :
    (p.redirect old new).UsesExact :=
  UsesUpTo.redirect h .eq old new

/-! ### Erasing -/

theorem instr_detach (p : Program) (i j : InstrId) :
    (p.detach i).instr j =
      if i = j then { p.instr i with operands := [], place := .erased } else p.instr j := by
  have hcore : ((p.dropOperands i).modifyInstr i fun x => { x with place := .erased }).instr j =
      if i = j then { p.instr i with operands := [], place := .erased } else p.instr j := by
    rw [instr_modifyInstr, instr_dropOperands, instr_dropOperands, if_pos rfl]
    split <;> rfl
  dsimp only [detach]
  split
  · rw [(relinked_unlink _ _ _).instr]
    exact hcore
  · exact hcore

theorem usesOf_detach (p : Program) (i : InstrId) (w : Value) :
    (p.detach i).usesOf w = (p.dropOperands i).usesOf w := by
  dsimp only [detach]
  split
  · exact (relinked_unlink _ _ _).usesOf w
  · rfl

/-- No use is added. -/
theorem usesOf_detach_sublist (p : Program) (i : InstrId) (w : Value) :
    ((p.detach i).usesOf w).Sublist (p.usesOf w) := by
  rw [usesOf_detach, dropOperands, usesOf_modifyInstr]
  exact usesOf_unregisterFrom_sublist i w _ 0 p

/-- The uses by other instructions stay. -/
theorem mem_usesOf_detach {i : InstrId} {u : Use} (hu : u.user ≠ i) (w : Value) :
    u ∈ (p.detach i).usesOf w ↔ u ∈ p.usesOf w := by
  rw [usesOf_detach, dropOperands, usesOf_modifyInstr, ← List.count_pos_iff, ← List.count_pos_iff,
    count_unregisterFrom, holdsFrom_operands]
  simp [hu]

theorem UsesUpTo.detach {R : Nat → Nat → Prop} (h : p.UsesUpTo R) (hR : Tolerance R) (i : InstrId) :
    (p.detach i).UsesUpTo R := by
  refine (h.dropOperands hR i).congr (fun j => ?_) (usesOf_detach p i)
  rw [instr_detach, instr_dropOperands]
  split <;> rfl

theorem UsesExact.detach (h : p.UsesExact) (i : InstrId) : (p.detach i).UsesExact :=
  UsesUpTo.detach h .eq i

theorem erase_run (i : InstrId) (p : Program) :
    erase i p = if (p.instr i).isErased then (.ok .erased, p)
      else if p.usesOf (.instr i) ≠ [] then
        (.ok (.inUse (p.instr i).label (p.usesOf (.instr i)).length), p)
      else (.ok .erased, p.detach i) := by
  unfold erase
  change (if _ then _ else _ : Edit EraseOutcome) p = _
  split
  · rfl
  · split <;> rfl

end Program

end Midend
