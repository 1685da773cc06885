import Mathlib.Data.List.Nodup
import Midend.Proofs.Command.BlockLinks
import Midend.Proofs.Command.UseLists
import Midend.Proofs.Flow.ControlGraph

/-!
# The verifier is exact

On a program that was built by any calls at all, finished or not, the verifier answers for three rules:
terminators stand at the end of their blocks; an operand that is an instruction is in the function of
its user, and before it if both are in the same block; and what a function defines or uses is no operand
of an instruction that is in no block.  Every breach of these gets a line of its own in the report, and
there are no other lines.

The verifier also looks at the links and the sizes of blocks, and compares all use-lists with the operand
slots.  Since such programs are arranged and their use-lists are exact, all it can find there are the slots
of instructions that are in no block.

## Main definitions

* `Breach`: a breach of a rule, with the place where it is.
* `Program.Breaks`: the breaches in a function.
* `Program.breachLine`: the line that a breach gets.
* `Program.TerminatorsLast`, `Program.OperandsReady`, `Program.UsersPlaced`: the rules.

## Main results

* `Program.Arranged.blockViolations_eq_map`, `Program.Arranged.operandViolations_eq`,
  `Program.Arranged.useListViolations_eq`: what the parts of the verifier report.
* `verifyFunc_exact`: the report has one line for each breach, so that it is empty just if the rules are
  kept.
-/

namespace Midend

/-! ### Lists -/

section Lists

variable {α β : Type}

/-- Lists that share nothing are put together without repetitions. -/
theorem nodup_flatMap_of_inj {l : List α} {g : α → List β} (hl : l.Nodup)
    (hg : ∀ a ∈ l, (g a).Nodup) (hinj : ∀ a a' b, b ∈ g a → b ∈ g a' → a = a') :
    (l.flatMap g).Nodup := by
  refine List.nodup_flatMap.mpr ⟨hg, hl.imp fun {a a'} hne b hb hb' => ?_⟩
  exact hne (hinj a a' b hb hb')

variable [DecidableEq α]

/-- An element stands before another one just if its position is smaller. -/
theorem pair_sublist_iff_idxOf_lt {a b : α} {l : List α} (hl : l.Nodup) (ha : a ∈ l) (hb : b ∈ l) :
    [a, b].Sublist l ↔ l.idxOf a < l.idxOf b := by
  induction l with
  | nil => cases ha
  | cons c l ih =>
    rw [List.nodup_cons] at hl
    have hmem : [a, b].Sublist l → a ∈ l ∧ b ∈ l := fun h => ⟨h.subset (by simp), h.subset (by simp)⟩
    rw [List.sublist_cons_iff, List.idxOf_cons, List.idxOf_cons]
    by_cases hca : c = a
    · subst hca
      by_cases hcb : c = b
      · -- Nothing stands before itself.
        subst hcb
        simp only [beq_self_eq_true, cond_true, Nat.lt_irrefl, iff_false, not_or]
        refine ⟨fun h => hl.1 (hmem h).1, ?_⟩
        rintro ⟨r, hr, hsub⟩
        obtain rfl := (List.cons.inj hr).2
        exact hl.1 (List.singleton_sublist.mp hsub)
      · have hbl : b ∈ l := (List.mem_cons.mp hb).resolve_left (Ne.symm hcb)
        simp only [beq_self_eq_true, cond_true, beq_false_of_ne hcb, cond_false, Nat.succ_pos, iff_true]
        exact .inr ⟨[b], rfl, List.singleton_sublist.mpr hbl⟩
    · have hal : a ∈ l := (List.mem_cons.mp ha).resolve_left (Ne.symm hca)
      have hfirst : ¬ ∃ r, [a, b] = c :: r ∧ r.Sublist l := fun ⟨r, hr, _⟩ => hca (List.cons.inj hr).1.symm
      by_cases hcb : c = b
      · subst hcb
        simp only [beq_self_eq_true, cond_true, Nat.not_lt_zero, iff_false, not_or]
        exact ⟨fun h => hl.1 (hmem h).2, hfirst⟩
      · have hbl : b ∈ l := (List.mem_cons.mp hb).resolve_left (Ne.symm hcb)
        simp only [beq_false_of_ne hca, beq_false_of_ne hcb, cond_false, hfirst, or_false,
          Nat.add_lt_add_iff_right]
        exact ih hl.2 hal hbl

end Lists

/-! ### Breaches -/

/-- A breach of a rule, with the place where it is. -/
inductive Breach where
  /-- The instruction `i` of the block `b` is a terminator and not the last one. -/
  | terminator (b : BlockRef) (i : InstrId)
  /-- A slot of an instruction in the block `b` holds the instruction `d`, which is not ready. -/
  | operand (b : BlockRef) (slot : Use) (d : InstrId)
  /-- A slot of an instruction that is in no block holds the value `v`. -/
  | stray (v : Value) (slot : Use)
  deriving DecidableEq, Repr

namespace Program

/-- The instruction is in a block of the function. -/
def InFunc (p : Program) (f : FuncId) (i : InstrId) : Prop :=
  ∃ b, (p.instr i).place = .inBlock b ∧ b.func = f

/-- The instruction `d` can be an operand of the instruction `i` of the block `b`: it is in the same
function and, if it is in the same block, it stands before `i`. -/
def Ready (p : Program) (b : BlockRef) (d i : InstrId) : Prop :=
  p.InFunc b.func d ∧ ((p.instr d).place = .inBlock b → [d, i].Sublist (p.block b).instrs)

/-- The value is one of the instructions of the function, or one of them holds it. -/
def InSight (p : Program) (f : FuncId) (v : Value) : Prop :=
  ∃ i, p.InFunc f i ∧ (v = .instr i ∨ some v ∈ (p.instr i).operands)

/-- No instruction of the function but the last one of its block is a terminator. -/
def TerminatorsLast (p : Program) (f : FuncId) : Prop :=
  ∀ b i, b.func = f → (p.instr i).place = .inBlock b → (p.instr i).op.isTerminator = true →
    (p.block b).instrs.getLast? = some i

/-- The instructions that are held by instructions of the function are ready for them. -/
def OperandsReady (p : Program) (f : FuncId) : Prop :=
  ∀ b i d, b.func = f → (p.instr i).place = .inBlock b → some (.instr d) ∈ (p.instr i).operands →
    p.Ready b d i

/-- What the function defines or uses is held by instructions in blocks only. -/
def UsersPlaced (p : Program) (f : FuncId) : Prop :=
  ∀ v, p.InSight f v → ∀ i, some v ∈ (p.instr i).operands → ∃ b, (p.instr i).place = .inBlock b

/-- The breaches of the rules in a function. -/
inductive Breaks (p : Program) (f : FuncId) : Breach → Prop where
  /-- A terminator that is not the last instruction of its block. -/
  | terminator {b : BlockRef} {i : InstrId} (hb : b.func = f) (hi : (p.instr i).place = .inBlock b)
      (hop : (p.instr i).op.isTerminator = true) (hlast : (p.block b).instrs.getLast? ≠ some i) :
      Breaks p f (.terminator b i)
  /-- An operand that is not ready. -/
  | operand {b : BlockRef} {slot : Use} {d : InstrId} (hb : b.func = f)
      (huser : (p.instr slot.user).place = .inBlock b) (hslot : p.readSlot slot = some (.instr d))
      (hready : ¬ p.Ready b d slot.user) : Breaks p f (.operand b slot d)
  /-- A user that is in no block. -/
  | stray {v : Value} {slot : Use} (hv : p.InSight f v) (hslot : p.readSlot slot = some v)
      (huser : ∀ b, (p.instr slot.user).place ≠ .inBlock b) : Breaks p f (.stray v slot)

/-- The line that a breach gets in the report. -/
def breachLine (p : Program) : Breach → Violation
  | .terminator b i => .misplacedTerminator (p.block b).name (p.instr i).op
  | .operand b slot d =>
    if (p.funcInstrs b.func).contains d then p.useBeforeDef b d slot.user
    else .foreignOperand (p.block b).name (p.instr slot.user).label (p.instr d).label
  | .stray v slot => .staleUse (p.label v) (p.instr slot.user).label slot.index

variable {p : Program} {f : FuncId}

/-- There is no breach just if the rules are kept. -/
theorem forall_not_breaks_iff :
    (∀ x, ¬ p.Breaks f x) ↔ p.TerminatorsLast f ∧ p.OperandsReady f ∧ p.UsersPlaced f := by
  constructor
  · intro h
    refine ⟨fun b i hb hi hop => ?_, fun b i d hb hi hd => ?_, fun v hv i hi => ?_⟩
    · exact Classical.byContradiction fun hlast => h _ (.terminator hb hi hop hlast)
    · obtain ⟨k, hk⟩ := exists_readSlot_of_mem hd
      exact Classical.byContradiction fun hready => h (.operand b ⟨i, k⟩ d) (.operand hb hi hk hready)
    · obtain ⟨k, hk⟩ := exists_readSlot_of_mem hi
      refine Classical.byContradiction fun hno => h (.stray v ⟨i, k⟩) (.stray hv hk fun b hb => ?_)
      exact hno ⟨b, hb⟩
  · rintro ⟨hlast, hready, hplaced⟩ x hx
    cases hx with
    | terminator hb hi hop hne => exact hne (hlast _ _ hb hi hop)
    | operand hb huser hslot hnot =>
      exact hnot (hready _ _ _ hb huser (mem_operands_of_readSlot hslot))
    | stray hv hslot huser =>
      obtain ⟨b, hb⟩ := hplaced _ hv _ (mem_operands_of_readSlot hslot)
      exact huser b hb

namespace Arranged

theorem mem_funcInstrs (h : p.Arranged) {i : InstrId} : i ∈ p.funcInstrs f ↔ p.InFunc f i := by
  rw [Program.mem_funcInstrs]
  constructor
  · rintro ⟨k, hk⟩
    exact ⟨⟨f, k⟩, (h.listed _ i).mp hk, rfl⟩
  · rintro ⟨b, hb, rfl⟩
    exact ⟨b.index, (h.listed b i).mpr hb⟩

theorem mem_blockRefs (h : p.Arranged) {b : BlockRef} {i : InstrId}
    (hi : (p.instr i).place = .inBlock b) : b ∈ p.blockRefs b.func :=
  List.mem_map.mpr ⟨b.index, List.mem_range.mpr (hasBlock_of_mem ((h.listed b i).mpr hi)), rfl⟩

end Arranged

/-! ### Terminators -/

/-- The terminators of a block that are not the last instruction. -/
def terminatorBreaches (p : Program) (b : BlockRef) : List Breach :=
  (p.block b).instrs.flatMap fun i =>
    if (p.instr i).op.isTerminator = true ∧ (p.block b).instrs.getLast? ≠ some i then [.terminator b i]
    else []

theorem mem_terminatorBreaches {b : BlockRef} {x : Breach} :
    x ∈ p.terminatorBreaches b ↔ ∃ i, x = .terminator b i ∧ i ∈ (p.block b).instrs ∧
      (p.instr i).op.isTerminator = true ∧ (p.block b).instrs.getLast? ≠ some i := by
  unfold terminatorBreaches
  rw [List.mem_flatMap]
  constructor
  · rintro ⟨i, hi, hx⟩
    split at hx
    · next hop => exact ⟨i, List.mem_singleton.mp hx, hi, hop⟩
    · cases hx
  · rintro ⟨i, rfl, hi, hop⟩
    refine ⟨i, hi, ?_⟩
    rw [if_pos hop]
    exact List.mem_singleton_self _

namespace Arranged

/-- Blocks list only what is theirs and know how much that is, so all that is reported are terminators. -/
theorem blockViolations_eq_map (h : p.Arranged) (b : BlockRef) :
    p.blockViolations b = (p.terminatorBreaches b).map p.breachLine := by
  rw [h.blockViolations_eq, terminatorBreaches, List.map_flatMap]
  refine List.flatMap_congr fun i hi => ?_
  split <;> rfl

theorem nodup_terminatorBreaches (h : p.Arranged) (b : BlockRef) :
    (p.terminatorBreaches b).Nodup := by
  refine nodup_flatMap_of_inj (h.nodup b) (fun i _ => ?_) fun i j x hi hj => ?_
  · split
    · exact List.nodup_singleton _
    · exact List.nodup_nil
  · split at hi
    · split at hj
      · rw [List.mem_singleton] at hi hj
        exact (Breach.terminator.inj (hi.symm.trans hj)).2
      · cases hj
    · cases hi

end Arranged

/-! ### Operands -/

/-- Does the verifier accept the instruction `d` as an operand of the instruction `i`? -/
def accepts (p : Program) (b : BlockRef) (d i : InstrId) : Bool :=
  (p.funcInstrs b.func).contains d &&
    !((p.instr d).place = .inBlock b && (p.block b).instrs.idxOf i ≤ (p.block b).instrs.idxOf d)

/-- The slot `k` of the instruction `i`, if it holds an instruction that is not ready. -/
def slotBreaches (p : Program) (b : BlockRef) (i : InstrId) (k : Nat) : Option Value → List Breach
  | some (.instr d) => if p.accepts b d i then [] else [.operand b ⟨i, k⟩ d]
  | _ => []

/-- The slots of the instructions of a block that hold instructions that are not ready. -/
def operandBreaches (p : Program) (b : BlockRef) : List Breach :=
  (p.block b).instrs.flatMap fun i =>
    (p.instr i).operands.zipIdx.flatMap fun s => p.slotBreaches b i s.2 s.1

theorem mem_slotBreaches {b : BlockRef} {i : InstrId} {k : Nat} {v : Option Value} {x : Breach} :
    x ∈ p.slotBreaches b i k v ↔
      ∃ d, v = some (.instr d) ∧ x = .operand b ⟨i, k⟩ d ∧ p.accepts b d i = false := by
  cases v with
  | none => simp [slotBreaches]
  | some w =>
    cases w with
    | instr d =>
      rw [slotBreaches]
      split
      · next h => simp [h]
      · next h => simpa using fun _ => h
    | _ => simp [slotBreaches]

theorem mem_operandBreaches {b : BlockRef} {x : Breach} :
    x ∈ p.operandBreaches b ↔ ∃ slot d, x = .operand b slot d ∧ slot.user ∈ (p.block b).instrs ∧
      p.readSlot slot = some (.instr d) ∧ p.accepts b d slot.user = false := by
  unfold operandBreaches
  simp only [List.mem_flatMap, Prod.exists, List.mem_zipIdx_iff_getElem?, mem_slotBreaches]
  constructor
  · rintro ⟨i, hi, v, k, hk, d, rfl, rfl, hd⟩
    exact ⟨⟨i, k⟩, d, rfl, hi, readSlot_eq_some_iff.mpr hk, hd⟩
  · rintro ⟨slot, d, rfl, hi, hslot, hd⟩
    exact ⟨slot.user, hi, _, slot.index, readSlot_eq_some_iff.mp hslot, d, rfl, rfl, hd⟩

namespace Arranged

theorem accepts_iff (h : p.Arranged) {b : BlockRef} {d i : InstrId}
    (hi : (p.instr i).place = .inBlock b) : p.accepts b d i = true ↔ p.Ready b d i := by
  rw [accepts, Ready, Bool.and_eq_true, List.contains_iff_mem, h.mem_funcInstrs]
  refine and_congr_right fun _ => ?_
  by_cases hd : (p.instr d).place = .inBlock b
  · rw [pair_sublist_iff_idxOf_lt (h.nodup b) ((h.listed b d).mpr hd) ((h.listed b i).mpr hi)]
    simp [hd]
  · simp [hd]

end Arranged

theorem Arranged.slotViolations_instr (h : p.Arranged) (b : BlockRef) (i : InstrId) (k : Nat)
    (d : InstrId) : p.slotViolations b i k (some (.instr d)) =
      if p.accepts b d i then [] else [p.breachLine (.operand b ⟨i, k⟩ d)] := by
  rw [slotViolations, breachLine, accepts, h.chains_eq, h.chain_eq]
  by_cases hd : (p.funcInstrs b.func).contains d = true
  · rw [hd, Bool.not_true, if_neg Bool.false_ne_true, if_pos rfl, Bool.true_and]
    split
    · next hlate => rw [hlate, Bool.not_true, if_neg Bool.false_ne_true, useBeforeDef]
    · next hlate => rw [eq_false_of_ne_true hlate, Bool.not_false, if_pos rfl]
  · rw [eq_false_of_ne_true hd, Bool.not_false, if_pos rfl, if_neg Bool.false_ne_true,
      Bool.false_and, if_neg Bool.false_ne_true]

/-- Slots are filled, so all that is reported are instructions that are not ready. -/
theorem Arranged.operandViolations_eq (h : p.Arranged) (hfilled : ∀ i, none ∉ (p.instr i).operands)
    (b : BlockRef) : p.operandViolations b = (p.operandBreaches b).map p.breachLine := by
  unfold operandViolations operandBreaches
  rw [h.chain_eq, List.map_flatMap]
  refine List.flatMap_congr fun i _ => ?_
  rw [List.map_flatMap]
  refine List.flatMap_congr ?_
  rintro ⟨v, k⟩ hv
  -- An empty slot would be reported as well, but there is none.
  have hmem := List.mem_of_getElem? (List.mem_zipIdx_iff_getElem?.mp hv)
  cases v with
  | none => exact absurd hmem (hfilled i)
  | some w =>
    cases w with
    | instr d =>
      dsimp only
      rw [h.slotViolations_instr, slotBreaches]
      split <;> rfl
    | _ => rfl

theorem Arranged.nodup_operandBreaches (h : p.Arranged) (b : BlockRef) :
    (p.operandBreaches b).Nodup := by
  refine nodup_flatMap_of_inj (h.nodup b) (fun i _ => ?_) fun i j x hi hj => ?_
  · have hindices : ((p.instr i).operands.zipIdx.map Prod.snd).Nodup := by
      rw [List.zipIdx_map_snd]
      exact List.nodup_range'
    refine nodup_flatMap_of_inj (.of_map _ hindices) (fun s _ => ?_) ?_
    · obtain ⟨v, k⟩ := s
      unfold slotBreaches
      split
      · split
        · exact List.nodup_nil
        · exact List.nodup_singleton _
      · exact List.nodup_nil
    · rintro ⟨v, k⟩ ⟨w, l⟩ x hv hw
      obtain ⟨d, rfl, rfl, -⟩ := mem_slotBreaches.mp hv
      obtain ⟨d', rfl, heq, -⟩ := mem_slotBreaches.mp hw
      obtain ⟨-, hslot, rfl⟩ := Breach.operand.inj heq
      exact congrArg (Prod.mk _) (Use.mk.inj hslot).2
  · obtain ⟨s, -, hs⟩ := List.mem_flatMap.mp hi
    obtain ⟨s', -, hs'⟩ := List.mem_flatMap.mp hj
    obtain ⟨d, -, rfl, -⟩ := mem_slotBreaches.mp hs
    obtain ⟨d', -, heq, -⟩ := mem_slotBreaches.mp hs'
    exact (Use.mk.inj (Breach.operand.inj heq).2.1).1

/-! ### Use-lists -/

/-- The slots in the use-list of a value that belong to instructions in no block. -/
def strays (p : Program) (v : Value) : List Breach :=
  ((p.usesOf v).filter fun u => (p.instr u.user).place.block?.isNone).map (.stray v)

theorem isNone_block?_iff {place : Place} :
    place.block?.isNone = true ↔ ∀ b, place ≠ .inBlock b := by
  cases place <;> simp [Place.block?]

theorem mem_strays (hexact : p.UsesExact) {v : Value} {x : Breach} :
    x ∈ p.strays v ↔ ∃ slot, x = .stray v slot ∧ p.readSlot slot = some v ∧
      ∀ b, (p.instr slot.user).place ≠ .inBlock b := by
  simp only [strays, List.mem_map, List.mem_filter, hexact.mem_iff, isNone_block?_iff]
  constructor
  · rintro ⟨slot, hslot, rfl⟩
    exact ⟨slot, rfl, hslot⟩
  · rintro ⟨slot, rfl, hslot⟩
    exact ⟨slot, hslot, rfl⟩

theorem nodup_strays (hexact : p.UsesExact) (v : Value) : (p.strays v).Nodup :=
  ((hexact.nodup v).filter _).map fun _ _ h => (Breach.stray.inj h).2

namespace Arranged

/-- Use-lists are exact, so all that is reported are users in no block. -/
theorem useListViolations_eq (h : p.Arranged) (hexact : p.UsesExact) (f : FuncId) (v : Value) :
    p.useListViolations f v = (p.strays v).map p.breachLine := by
  have hheld : ∀ u, u ∈ ((p.heldSlots f).filter fun s => s.2 = v).map Prod.fst ↔
      p.InFunc f u.user ∧ p.readSlot u = some v := by
    intro u
    rw [← h.mem_funcInstrs, ← h.mem_heldSlots]
    simp
  have helsewhere : ∀ u : Use, p.isElsewhere f u.user = false ↔
      (∀ b, (p.instr u.user).place ≠ .inBlock b) ∨ p.InFunc f u.user := by
    intro u
    unfold isElsewhere InFunc
    cases (p.instr u.user).place <;> simp
  -- Every slot that is held is in the use-list, so none is missing there.
  have hmissing : (((p.heldSlots f).filter fun s => s.2 = v).map Prod.fst).filter (fun u =>
      !((p.usesOf v).filter fun u => !p.isElsewhere f u.user).contains u) = [] := by
    refine List.filter_eq_nil_iff.mpr fun u hu => ?_
    obtain ⟨hin, hread⟩ := (hheld u).mp hu
    simpa [hexact.mem_iff] using ⟨hread, (helsewhere u).mpr (.inr hin)⟩
  have hstale : ((p.usesOf v).filter fun u => !p.isElsewhere f u.user).filter (fun u =>
      !(((p.heldSlots f).filter fun s => s.2 = v).map Prod.fst).contains u) =
      (p.usesOf v).filter fun u => (p.instr u.user).place.block?.isNone := by
    rw [List.filter_filter]
    refine List.filter_congr fun u hu => ?_
    have hread := hexact.mem_iff.mp hu
    -- A slot of an instruction of this function is held, and one of another function is passed over.
    rw [Bool.eq_iff_iff, isNone_block?_iff, Bool.and_eq_true, Bool.not_eq_true', Bool.not_eq_true',
      helsewhere, ← Bool.not_eq_true, List.contains_iff_mem, hheld]
    constructor
    · rintro ⟨hnot, hloose | hin⟩
      · exact hloose
      · exact absurd ⟨hin, hread⟩ hnot
    · intro hloose
      exact ⟨fun hin => hloose _ hin.1.choose_spec.1, .inl hloose⟩
  dsimp only [useListViolations]
  rw [hmissing, hstale, eraseDups_of_nodup ((hexact.nodup v).filter _), if_pos rfl, List.map_nil,
    List.append_nil, List.append_nil, strays, List.map_map]
  rfl

theorem mem_valuesInSight (h : p.Arranged) {v : Value} : v ∈ p.valuesInSight f ↔ p.InSight f v := by
  unfold valuesInSight InSight
  rw [h.chains_eq, List.mem_eraseDups, List.mem_append, List.mem_map, List.mem_map]
  constructor
  · rintro (⟨i, hi, rfl⟩ | ⟨⟨u, w⟩, hu, rfl⟩)
    · exact ⟨i, h.mem_funcInstrs.mp hi, .inl rfl⟩
    · obtain ⟨huser, hread⟩ := h.mem_heldSlots.mp hu
      exact ⟨u.user, h.mem_funcInstrs.mp huser, .inr (mem_operands_of_readSlot hread)⟩
  · rintro ⟨i, hi, rfl | hv⟩
    · exact .inl ⟨i, h.mem_funcInstrs.mpr hi, rfl⟩
    · obtain ⟨k, hk⟩ := exists_readSlot_of_mem hv
      exact .inr ⟨(⟨i, k⟩, v), h.mem_heldSlots.mpr ⟨h.mem_funcInstrs.mpr hi, hk⟩, rfl⟩

end Arranged

/-! ### Functions -/

/-- The breaches in a function, in the order of the report. -/
def breaches (p : Program) (f : FuncId) : List Breach :=
  (p.blockRefs f).flatMap p.terminatorBreaches ++ (p.blockRefs f).flatMap p.operandBreaches ++
    (p.valuesInSight f).flatMap p.strays

section Exact

variable (h : p.Arranged) (hexact : p.UsesExact)

include h hexact

theorem verifyFunc_eq (hfilled : ∀ i, none ∉ (p.instr i).operands) (f : FuncId) :
    p.verifyFunc f = (p.breaches f).map p.breachLine := by
  rw [verifyFunc, funext h.blockViolations_eq_map, funext (h.operandViolations_eq hfilled),
    funext (h.useListViolations_eq hexact f), breaches, List.map_append, List.map_append,
    List.map_flatMap, List.map_flatMap, List.map_flatMap]

/-- The breaches that are listed are the breaches there are. -/
theorem mem_breaches {x : Breach} : x ∈ p.breaches f ↔ p.Breaks f x := by
  have hfunc : ∀ {b}, b ∈ p.blockRefs f → b.func = f := fun hb => by
    obtain ⟨k, -, rfl⟩ := List.mem_map.mp hb
    rfl
  simp only [breaches, List.mem_append, List.mem_flatMap, mem_terminatorBreaches, mem_operandBreaches,
    h.mem_valuesInSight, mem_strays hexact]
  constructor
  · rintro ((⟨b, hb, i, rfl, hi, hop, hlast⟩ | ⟨b, hb, slot, d, rfl, hi, hslot, hd⟩) |
      ⟨v, hv, slot, rfl, hslot, hloose⟩)
    · exact .terminator (hfunc hb) ((h.listed b i).mp hi) hop hlast
    · have huser := (h.listed b slot.user).mp hi
      refine .operand (hfunc hb) huser hslot fun hready => ?_
      rw [(h.accepts_iff huser).mpr hready] at hd
      cases hd
    · exact .stray hv hslot hloose
  · intro hx
    cases hx with
    | @terminator b i hb hi hop hlast =>
      exact .inl (.inl ⟨b, hb ▸ h.mem_blockRefs hi, i, rfl, (h.listed b i).mpr hi, hop, hlast⟩)
    | @operand b slot d hb huser hslot hready =>
      refine .inl (.inr ⟨b, hb ▸ h.mem_blockRefs huser, slot, d, rfl, (h.listed b _).mpr huser, hslot, ?_⟩)
      rw [← Bool.not_eq_true]
      exact mt (h.accepts_iff huser).mp hready
    | @stray v slot hv hslot hloose => exact .inr ⟨v, hv, slot, rfl, hslot, hloose⟩

/-- Each of them is listed once. -/
theorem nodup_breaches (f : FuncId) : (p.breaches f).Nodup := by
  have hterminators : ((p.blockRefs f).flatMap p.terminatorBreaches).Nodup := by
    refine nodup_flatMap_of_inj (p.nodup_blockRefs f) (fun b _ => h.nodup_terminatorBreaches b)
      fun b c x hb hc => ?_
    obtain ⟨i, rfl, -⟩ := mem_terminatorBreaches.mp hb
    obtain ⟨j, heq, -⟩ := mem_terminatorBreaches.mp hc
    exact (Breach.terminator.inj heq).1
  have hoperands : ((p.blockRefs f).flatMap p.operandBreaches).Nodup := by
    refine nodup_flatMap_of_inj (p.nodup_blockRefs f) (fun b _ => h.nodup_operandBreaches b)
      fun b c x hb hc => ?_
    obtain ⟨slot, d, rfl, -⟩ := mem_operandBreaches.mp hb
    obtain ⟨slot', d', heq, -⟩ := mem_operandBreaches.mp hc
    exact (Breach.operand.inj heq).1
  have hstrays : ((p.valuesInSight f).flatMap p.strays).Nodup := by
    refine nodup_flatMap_of_inj (nodup_eraseDups _) (fun v _ => nodup_strays hexact v)
      fun v w x hv hw => ?_
    obtain ⟨slot, rfl, -⟩ := (mem_strays hexact).mp hv
    obtain ⟨slot', heq, -⟩ := (mem_strays hexact).mp hw
    exact (Breach.stray.inj heq).1
  -- Breaches of different rules differ.
  rw [breaches, List.nodup_append, List.nodup_append]
  refine ⟨⟨hterminators, hoperands, ?_⟩, hstrays, ?_⟩
  · rintro x hx y hy rfl
    obtain ⟨b, -, hb⟩ := List.mem_flatMap.mp hx
    obtain ⟨c, -, hc⟩ := List.mem_flatMap.mp hy
    obtain ⟨i, rfl, -⟩ := mem_terminatorBreaches.mp hb
    obtain ⟨slot, d, heq, -⟩ := mem_operandBreaches.mp hc
    cases heq
  · rintro x hx y hy rfl
    obtain ⟨v, -, hv⟩ := List.mem_flatMap.mp hy
    obtain ⟨slot, rfl, -⟩ := (mem_strays hexact).mp hv
    rcases List.mem_append.mp hx with hx | hx
    · obtain ⟨b, -, hb⟩ := List.mem_flatMap.mp hx
      obtain ⟨i, heq, -⟩ := mem_terminatorBreaches.mp hb
      cases heq
    · obtain ⟨b, -, hb⟩ := List.mem_flatMap.mp hx
      obtain ⟨slot', d, heq, -⟩ := mem_operandBreaches.mp hb
      cases heq

end Exact

end Program

/-- **The verifier is exact.**  Let any commands be carried out on an empty program, failing ones
included, of which none passes a missing operand.  Then the verifier has nothing to report on a function
just if terminators stand last in their blocks, the instructions that are operands are ready for their
users, and what the function defines or uses is held by instructions in blocks only.  Otherwise the report
has exactly one line for each breach of these rules. -/
theorem verifyFunc_exact (name : String) (cs : List Command) (hcs : ∀ c ∈ cs, c.IsComplete)
    (f : FuncId) :
    let start : Workbench := { program := .empty name }
    let p := (start.runAll cs).program
    (p.verifyFunc f = [] ↔ p.TerminatorsLast f ∧ p.OperandsReady f ∧ p.UsersPlaced f) ∧
    ∃ breaches : List Breach, breaches.Nodup ∧ (∀ x, x ∈ breaches ↔ p.Breaks f x) ∧
      p.verifyFunc f = breaches.map p.breachLine := by
  intro start p
  obtain ⟨owner, htracked, -, -⟩ := Workbench.tracked_runAll (w := start) (Program.tracked_empty name) cs
  have harranged := htracked.toArranged
  have hempty : start.Consistent fun _ => True := Program.consistent_empty name
  have hconsistent := hempty.runAll hcs fun _ _ _ _ => trivial
  have hreport : p.verifyFunc f = (p.breaches f).map p.breachLine :=
    Program.verifyFunc_eq harranged hconsistent.exact hconsistent.filled f
  have hmem : ∀ x, x ∈ p.breaches f ↔ p.Breaks f x := fun x =>
    Program.mem_breaches harranged hconsistent.exact
  refine ⟨?_, p.breaches f, Program.nodup_breaches harranged hconsistent.exact f, hmem, hreport⟩
  rw [hreport, List.map_eq_nil_iff, List.eq_nil_iff_forall_not_mem, ← Program.forall_not_breaks_iff]
  exact forall_congr' fun x => not_congr (hmem x)

/-- Breaches of all kinds, in the first of two functions: a return is put before two loads, of which one
loads from itself and one from storage of the other function, and a third load, in no block, loads from
the first one. -/
def careless : List Command :=
  [.addFunc "f" .void, .addBlock 0 "entry", .addFunc "g" .void, .addBlock 1 "entry",
    .moveTo ⟨1, 0⟩, .alloca "q" ⟨.int, 32⟩, .moveTo ⟨0, 0⟩, .alloca "p" ⟨.int, 32⟩,
    .load "x" ⟨.int, 32⟩ (some (.instr 1)), .load "y" ⟨.int, 32⟩ (some (.instr 0)),
    .setOperand (some 2) 0 (some (.instr 2)), .newInstr { op := .ret } [],
    .insertBefore ⟨0, 0⟩ (some 4) (some 2), .newInstr { op := .load } [some (.instr 2)]]

/-- The function whose storage is used elsewhere keeps the rules; the other one has four breaches. -/
theorem verifyFunc_exact_careless :
    let start : Workbench := { program := .empty "m" }
    let p := (start.runAll careless).program
    (∀ c ∈ careless, c.IsComplete) ∧
    (p.TerminatorsLast 1 ∧ p.OperandsReady 1 ∧ p.UsersPlaced 1) ∧
    ∃ breaches : List Breach, breaches.Nodup ∧ breaches.length = 4 ∧ ∀ x, x ∈ breaches ↔ p.Breaks 0 x := by
  intro start p
  have hcs : ∀ c ∈ careless, c.IsComplete := by decide
  have hclean : p.verifyFunc 1 = [] := by decide +kernel
  have hlength : (p.verifyFunc 0).length = 4 := by decide +kernel
  obtain ⟨breaches, hnodup, hmem, hreport⟩ := (verifyFunc_exact "m" careless hcs 0).2
  refine ⟨hcs, (verifyFunc_exact "m" careless hcs 1).1.mp hclean, breaches, hnodup, ?_, hmem⟩
  rw [← List.length_map, ← hreport, hlength]

end Midend
