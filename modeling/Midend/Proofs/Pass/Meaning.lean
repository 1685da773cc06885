import Midend.Proofs.Pass.KeptInstrs

/-!
# Simplifications that keep the meaning

What a program means is told by its valuations.  A valuation gives a number to every value: to a constant
the one it stands for, and to arithmetic what comes out for its operands, cut down to the width of its
type.  What a parameter, a load or a call yields is not known, so these may have any number.

Folding, and erasing what is dead, keep every valuation.  The constants that folding makes have numbers of
their own, and the number of a folded instruction is that of its constant, whatever its width: the constant
has the type of the first operand, which is the type of the instruction.  So all operands that are left have
the numbers they had, although some of them are other values now.

Blocks may refer to each other in a circle, and then a valuation is more than a run through the program: it
solves all equations at once.

## Main definitions

* `Program.Typed`: arithmetic has two operands and the type of the first one.
* `Program.Evaluates`: the valuations of a program.
* `Program.extension`: a valuation, extended to new constants.
* `Program.actions`: the instructions of a block that have side effects.
* `Program.Carries`: operands are exchanged for others of the same number and type.
* `Program.SameMeaning`: what is left has the meaning that it had.

## Main results

* `Program.SameMeaning.detach`, `Program.SameMeaning.fold`: erasing and folding keep the meaning.
* `runAll_keeps_meaning`: so does any sequence of them.
-/

namespace Midend

/-! ### Arithmetic -/

/-- The operation on numbers that an instruction stands for. -/
def Opcode.arith? : Opcode → Option (Int64 → Int64 → Int64)
  | .add => some (· + ·)
  | .sub => some (· - ·)
  | .mul => some (· * ·)
  | _ => none

theorem Opcode.isArith_of_arith? {op : Opcode} {f : Int64 → Int64 → Int64} (h : op.arith? = some f) :
    op.isArith = true := by
  cases op with
  | add => rfl
  | sub => rfl
  | mul => rfl
  | _ => cases h

/-- Literals are folded by the operation, at the type of the first one. -/
theorem foldConst_eq (op : Opcode) (x y : Const) :
    foldConst op x y = op.arith?.map fun f => .ofValue x.ty (f x.value y.value) := by
  cases op <;> rfl

/-- A number for every value. -/
abbrev Valuation := Value → Int64

namespace Program

variable {p q r : Program} {ρ σ τ : Valuation} {i j : InstrId}

/-- The numbers of the operands of an instruction. -/
def operandValues (p : Program) (ρ : Valuation) (i : InstrId) : List (Option Int64) :=
  (p.instr i).operands.map (Option.map ρ)

/-- The types of the operands of an instruction. -/
def operandTypes (p : Program) (i : InstrId) : List (Option Ty) :=
  (p.instr i).operands.map (Option.map p.typeOf)

/-- The number that an arithmetic instruction must have if its operands have theirs. -/
def arithValue? (p : Program) (ρ : Valuation) (i : InstrId) : Option Int64 :=
  match (p.instr i).op.arith?, p.operandValues ρ i with
  | some f, [some x, some y] => some ((p.instr i).ty.wrap (f x y))
  | _, _ => none

/-- If the value is a constant, it is one of the program. -/
def Knows (p : Program) : Value → Prop
  | .const c => c < p.consts.size
  | _ => True

instance (p : Program) : DecidablePred p.Knows := fun v =>
  match v with
  | .const c => inferInstanceAs (Decidable (c < p.consts.size))
  | .global _ | .param _ | .instr _ => isTrue trivial

/-- Arithmetic has two operands and the type of the first one, and the constants among the operands are
those of the program. -/
structure Typed (p : Program) : Prop where
  /-- Arithmetic has two operands and the type of the first. -/
  arith : ∀ i, p.Listed i → (p.instr i).op.isArith = true → (p.operandTypes i).length = 2 ∧
    (p.operandTypes i).head? = some (some (p.instr i).ty)
  /-- Constants go by their numbers, so one that is an operand must have been made. -/
  known : ∀ i, p.Listed i → ∀ v ∈ (p.instr i).operands.filterMap id, p.Knows v

instance (p : Program) : Decidable p.Typed :=
  decidable_of_iff
    ((∀ i, p.Listed i → (p.instr i).op.isArith = true → (p.operandTypes i).length = 2 ∧
        (p.operandTypes i).head? = some (some (p.instr i).ty)) ∧
      ∀ i, p.Listed i → ∀ v ∈ (p.instr i).operands.filterMap id, p.Knows v)
    ⟨fun h => ⟨h.1, h.2⟩, fun h => ⟨h.arith, h.known⟩⟩

/-- **The valuations of a program:** constants have their numbers, and arithmetic has what comes out for
its operands.  All other values may have any number. -/
structure Evaluates (p : Program) (ρ : Valuation) : Prop where
  /-- A constant has its number. -/
  const : ∀ c < p.consts.size, ρ (.const c) = (p.consts.get c).value
  /-- Arithmetic has what comes out. -/
  arith : ∀ i, p.Listed i → ∀ n ∈ p.arithValue? ρ i, ρ (.instr i) = n

instance (p : Program) (ρ : Valuation) : Decidable (p.Evaluates ρ) :=
  decidable_of_iff
    ((∀ c < p.consts.size, ρ (.const c) = (p.consts.get c).value) ∧
      ∀ i, p.Listed i → (p.arithValue? ρ i).all (ρ (.instr i) = ·) = true)
    (by
      simp only [Option.all_eq_true, decide_eq_true_eq]
      exact ⟨fun h => ⟨h.1, h.2⟩, fun h => ⟨h.const, h.arith⟩⟩)

/-- A valuation of `p`, extended to `q`: the constants that were not in `p` have their numbers there. -/
def extension (p q : Program) (ρ : Valuation) : Valuation
  | .const c => if c < p.consts.size then ρ (.const c) else (q.consts.get c).value
  | v => ρ v

/-- The instructions of a block that have side effects, with what they do, what they call and where they
jump to. -/
def actions (p : Program) (b : BlockRef) : List (InstrId × Opcode × String × List BlockRef) :=
  ((p.block b).instrs.filter fun i => (p.instr i).op.hasSideEffects).map fun i =>
    (i, (p.instr i).op, (p.instr i).callee, (p.instr i).targets)

/-! ### Operands with the same numbers -/

theorem Typed.knows (h : p.Typed) (hi : p.Listed i) {v : Value}
    (hv : some v ∈ (p.instr i).operands) : p.Knows v :=
  h.known i hi v (List.mem_filterMap.mpr ⟨_, hv, rfl⟩)

/-- Arithmetic has the type of its first operand. -/
theorem Typed.typeOf_head (h : p.Typed) (hi : p.Listed i) (hop : (p.instr i).op.isArith = true)
    {v : Value} (hv : (p.instr i).operands.head? = some (some v)) : p.typeOf v = (p.instr i).ty := by
  obtain ⟨-, hhead⟩ := h.arith i hi hop
  rw [operandTypes, List.head?_map, hv] at hhead
  exact Option.some.inj (Option.some.inj hhead)

theorem Trims.of_listed (h : p.Trims q) (hi : q.Listed i) :
    p.Listed i ∧ ∃ ops, q.instr i = { p.instr i with operands := ops } := by
  obtain ⟨b, hi⟩ := hi
  obtain ⟨ops, heq, -⟩ := h.instr b i hi
  exact ⟨⟨b, (h.sublist b).subset hi⟩, ops, heq⟩

/-- What agrees on the values of a program agrees on the operands of its instructions. -/
theorem Typed.map_operands {α : Type} (h : p.Typed) (hi : p.Listed i) {f g : Value → α}
    (hfg : ∀ v, p.Knows v → f v = g v) :
    (p.instr i).operands.map (Option.map f) = (p.instr i).operands.map (Option.map g) := by
  refine List.map_congr_left fun v hv => ?_
  cases v with
  | none => rfl
  | some v => exact congrArg some (hfg v (h.knows hi hv))

/-- `q` under `σ` is what is left of `p` under `ρ`: operands may be other values, but of the same number
and type, and nothing with an effect is missing. -/
structure Carries (p : Program) (ρ : Valuation) (q : Program) (σ : Valuation) : Prop
    extends p.Trims q where
  /-- An operand has the number that was there. -/
  values : ∀ i, q.Listed i → q.operandValues σ i = p.operandValues ρ i
  /-- It has the type that was there. -/
  types : ∀ i, q.Listed i → q.operandTypes i = p.operandTypes i
  /-- If it is a constant, it is one of the program. -/
  known : ∀ i, q.Listed i → ∀ v ∈ (q.instr i).operands.filterMap id, q.Knows v
  /-- Constants have their numbers. -/
  const : ∀ c < q.consts.size, σ (.const c) = (q.consts.get c).value
  /-- Instructions have the numbers they had. -/
  result : ∀ i, σ (.instr i) = ρ (.instr i)
  /-- Nothing with an effect is missing. -/
  effects : ∀ b, q.effects b = p.effects b

namespace Carries

/-- Numbers of what is no value of the program do not matter. -/
theorem of_agree (htyped : p.Typed) (hρ : p.Evaluates ρ) (hσ : ∀ v, p.Knows v → σ v = ρ v) :
    p.Carries ρ p σ where
  toTrims := .refl p
  values _ hi := htyped.map_operands hi hσ
  types _ _ := rfl
  known := htyped.known
  const c hc := (hσ (.const c) hc).trans (hρ.const c hc)
  result i := hσ (.instr i) trivial
  effects _ := rfl

theorem trans (h : p.Carries ρ q σ) (h' : q.Carries σ r τ) : p.Carries ρ r τ where
  toTrims := h.toTrims.trans h'.toTrims
  values i hi := (h'.values i hi).trans (h.values i (h'.of_listed hi).1)
  types i hi := (h'.types i hi).trans (h.types i (h'.of_listed hi).1)
  known := h'.known
  const := h'.const
  result i := (h'.result i).trans (h.result i)
  effects b := (h'.effects b).trans (h.effects b)

/-- **Typing survives,** since operands are exchanged for others of the same type. -/
theorem typed (h : p.Carries ρ q σ) (hp : p.Typed) : q.Typed where
  arith i hi hop := by
    obtain ⟨hold, ops, heq⟩ := h.of_listed hi
    rw [heq] at hop
    rw [h.types i hi, heq]
    exact hp.arith i hold hop
  known := h.known

/-- **Valuations survive,** since operands are exchanged for others of the same number. -/
theorem evaluates (h : p.Carries ρ q σ) (hρ : p.Evaluates ρ) : q.Evaluates σ where
  const := h.const
  arith i hi n hn := by
    obtain ⟨hold, ops, heq⟩ := h.of_listed hi
    have hsame : q.arithValue? σ i = p.arithValue? ρ i := by
      unfold arithValue?
      rw [h.values i hi, heq]
    rw [hsame] at hn
    rw [h.result]
    exact hρ.arith i hold n hn

/-- What has side effects is among what has an effect, and is what it was. -/
theorem actions_eq (h : p.Carries ρ q σ) (b : BlockRef) : q.actions b = p.actions b := by
  have hamong : ∀ x : Instr, x.op.hasSideEffects = true → x.isPure = false := by
    intro x hx
    simp [Instr.isPure, hx]
  have hinstr : ∀ i ∈ q.effects b, ∃ ops, q.instr i = { p.instr i with operands := ops } := by
    intro i hi
    exact (h.of_listed ⟨b, (mem_effects.mp hi).1⟩).2
  unfold actions
  rw [filter_effects q b hamong, filter_effects p b hamong, ← h.effects b,
    List.filter_congr (q := fun i => (p.instr i).op.hasSideEffects)]
  · refine List.map_congr_left fun i hi => ?_
    obtain ⟨ops, heq⟩ := hinstr i (List.mem_filter.mp hi).1
    rw [heq]
  · intro i hi
    obtain ⟨ops, heq⟩ := hinstr i hi
    rw [heq]

end Carries

/-! ### Steps -/

/-- What does not tell a constant from an instruction does not see the one take the place of the other. -/
theorem Sound.map_operands_redirect {α : Type} (h : p.Sound) (hi : p.Listed i) {c : ConstId}
    {f : Value → α} (hf : p.Listed j → f (.const c) = f (.instr j)) :
    ((p.redirect (.instr j) (.const c)).instr i).operands.map (Option.map f) =
      (p.instr i).operands.map (Option.map f) := by
  rw [h.instr_redirect hi, Instr.substitute, List.map_map]
  refine List.map_congr_left fun v hv => ?_
  show (substituteIn (.instr j) (.const c) v).map f = v.map f
  unfold substituteIn
  split
  · next heq =>
    -- An operand of a listed instruction is listed.
    subst heq
    obtain ⟨w, hw, hlisted⟩ := h.present i hi _ hv
    cases hw
    exact congrArg some (hf (hlisted j rfl))
  · rfl

theorem consts_redirect (p : Program) (old new : Value) :
    (p.redirect old new).consts = p.consts := by
  obtain ⟨is, us, heq⟩ := p.exists_redirect old new
  rw [heq]

theorem consts_detach (p : Program) (i : InstrId) : (p.detach i).consts = p.consts := by
  obtain ⟨fs, is, ls, us, heq⟩ := p.exists_detach i
  rw [heq]

/-- The type of a value depends on its constant, its parameter or its instruction. -/
theorem typeOf_congr {v : Value} (hconst : ∀ c, v = .const c → q.consts.get c = p.consts.get c)
    (hparams : q.params = p.params) (hty : ∀ i, (q.instr i).ty = (p.instr i).ty) :
    q.typeOf v = p.typeOf v := by
  cases v with
  | const c => exact congrArg Const.ty (hconst c rfl)
  | global g => rfl
  | param a => exact congrArg (fun t : Table Param => (t.get a).ty) hparams
  | instr i => exact hty i

theorem SameButOperands.typeOf (h : SameButOperands p q) (hconsts : q.consts = p.consts)
    (hparams : q.params = p.params) : q.typeOf = p.typeOf :=
  funext fun _ => typeOf_congr (fun _ _ => by rw [hconsts]) hparams h.ty

theorem typeOf_redirect (p : Program) (old new : Value) : (p.redirect old new).typeOf = p.typeOf :=
  (sameButOperands_redirect p old new).typeOf (consts_redirect p old new)
    (trims_redirect p old new).params

theorem typeOf_detach (p : Program) (j : InstrId) : (p.detach j).typeOf = p.typeOf := by
  obtain ⟨fs, is, ls, us, hframe⟩ := p.exists_detach j
  refine funext fun v => typeOf_congr (fun _ _ => by rw [consts_detach]) (by rw [hframe]) fun i => ?_
  rw [instr_detach]
  split
  · next hij => rw [← hij]
  · rfl

/-- The number of a value depends on its constant. -/
theorem extension_congr {v : Value} (hconst : ∀ c, v = .const c → q.consts.get c = r.consts.get c) :
    p.extension q ρ v = p.extension r ρ v := by
  cases v with
  | const c =>
    show (if c < p.consts.size then ρ (.const c) else (q.consts.get c).value) = _
    rw [hconst c rfl]
    rfl
  | global g => rfl
  | param a => rfl
  | instr i => rfl

namespace Knows

theorem mono (hsize : p.consts.size ≤ q.consts.size) {v : Value} (hv : p.Knows v) : q.Knows v := by
  cases v with
  | const c => exact Nat.lt_of_lt_of_le hv hsize
  | global g => trivial
  | param a => trivial
  | instr i => trivial

theorem congr (hconsts : q.consts = p.consts) {v : Value} (hv : p.Knows v) : q.Knows v :=
  hv.mono (Nat.le_of_eq (by rw [hconsts]))

theorem get_push {v : Value} (hv : p.Knows v) (k : Const) (c : ConstId) (hc : v = .const c) :
    (p.consts.push k).get c = p.consts.get c := by
  subst hc
  rw [Table.get_push, if_neg (Nat.ne_of_lt hv)]

end Knows

/-- A new constant. -/
theorem Carries.push (htyped : p.Typed) (hρ : p.Evaluates ρ) {c : Const}
    (hold : ∀ v, p.Knows v → σ v = ρ v) (hnew : σ (.const p.consts.size) = c.value) :
    p.Carries ρ { p with consts := p.consts.push c } σ where
  toTrims := .of_operands ⟨_, _, _, rfl⟩ fun _ => ⟨_, rfl, rfl⟩
  values _ hi := htyped.map_operands hi hold
  types _ hi := htyped.map_operands hi fun _ hv => typeOf_congr (hv.get_push c) rfl fun _ => rfl
  known i hi v hv := by
    refine (htyped.known i hi v hv).mono ?_
    show p.consts.size ≤ (p.consts.push c).size
    rw [Table.size_push]
    exact Nat.le_succ _
  const d hd := by
    show σ (.const d) = ((p.consts.push c).get d).value
    rw [Table.get_push]
    split
    · next heq =>
      rw [heq]
      exact hnew
    · next hne =>
      have hlt : d < p.consts.size := by
        have hle : d < p.consts.size + 1 := by simpa using hd
        omega
      rw [hold (.const d) hlt]
      exact hρ.const d hlt
  result i := hold (.instr i) trivial
  effects _ := rfl

/-- A constant of the same number and type takes the place of an instruction. -/
theorem Carries.redirect (hs : p.Sound) (htyped : p.Typed) (hρ : p.Evaluates ρ) {c : ConstId}
    (hc : c < p.consts.size)
    (hj : p.Listed j → ρ (.const c) = ρ (.instr j) ∧ p.typeOf (.const c) = p.typeOf (.instr j)) :
    p.Carries ρ (p.redirect (.instr j) (.const c)) ρ := by
  have hsame := sameButOperands_redirect p (.instr j) (.const c)
  have htrims := trims_redirect p (.instr j) (.const c)
  have hconsts := consts_redirect p (.instr j) (.const c)
  refine ⟨htrims, fun i hi => ?_, fun i hi => ?_, fun i hi v hv => ?_, ?_, fun _ => rfl, hsame.effects⟩
  · exact hs.map_operands_redirect (hsame.listed.mp hi) fun h => (hj h).1
  · rw [operandTypes, typeOf_redirect]
    exact hs.map_operands_redirect (hsame.listed.mp hi) fun h => (hj h).2
  · rw [hsame.listed] at hi
    obtain ⟨w, hw, hwv⟩ := List.mem_filterMap.mp hv
    rw [hs.instr_redirect hi, Instr.substitute, List.mem_map] at hw
    obtain ⟨old, hold, heq⟩ := hw
    obtain rfl : w = some v := hwv
    unfold substituteIn at heq
    split at heq
    · cases heq
      exact Knows.congr hconsts hc
    · subst heq
      exact (htyped.knows hi hold).congr hconsts
  · rw [hconsts]
    exact hρ.const

/-- An instruction that only computes a value is erased. -/
theorem Carries.detach (hs : p.Intact) (htyped : p.Typed) (hρ : p.Evaluates ρ)
    (hpure : (p.instr j).isPure = true) : p.Carries ρ (p.detach j) ρ := by
  have htrims := hs.trims_detach j
  have hconsts := consts_detach p j
  refine ⟨htrims, fun i hi => ?_, fun i hi => ?_, fun i hi v hv => ?_, ?_, fun _ => rfl,
    hs.effects_detach_of_isPure hpure⟩
  · obtain ⟨-, -, heq⟩ := hs.of_listed_detach hi
    rw [operandValues, heq]
    rfl
  · obtain ⟨-, -, heq⟩ := hs.of_listed_detach hi
    rw [operandTypes, typeOf_detach, heq]
    rfl
  · obtain ⟨hold, -, heq⟩ := hs.of_listed_detach hi
    rw [heq] at hv
    exact (htyped.known i hold v hv).congr hconsts
  · rw [hconsts]
    exact hρ.const

/-! ### The meaning is kept -/

/-- What is left in `q` has the meaning that it had in `p`, where values had the numbers of `ρ`. -/
structure SameMeaning (p : Program) (ρ : Valuation) (q : Program) : Prop where
  /-- Operands are there, and their uses are recorded. -/
  sound : q.Sound
  /-- Arithmetic is of the type of its first operand. -/
  typed : q.Typed
  /-- Values have the numbers they had, and new constants have theirs. -/
  evaluates : q.Evaluates (p.extension q ρ)
  /-- Constants are not lost. -/
  size : p.consts.size ≤ q.consts.size
  /-- What is left stands for what was there. -/
  carries : p.Carries ρ q (p.extension q ρ)

namespace SameMeaning

theorem refl (hsound : p.Sound) (htyped : p.Typed) (hρ : p.Evaluates ρ) : p.SameMeaning ρ p := by
  have hagree : ∀ v, p.Knows v → p.extension p ρ v = ρ v := by
    intro v hv
    cases v with
    | const c => exact if_pos hv
    | global g => rfl
    | param a => rfl
    | instr i => rfl
  have hcarries := Carries.of_agree htyped hρ hagree
  exact ⟨hsound, htyped, hcarries.evaluates hρ, Nat.le_refl _, hcarries⟩

theorem step (h : p.SameMeaning ρ q) (hsound : r.Sound) (hsize : q.consts.size ≤ r.consts.size)
    (hstep : q.Carries (p.extension q ρ) r (p.extension r ρ)) : p.SameMeaning ρ r where
  sound := hsound
  typed := hstep.typed h.typed
  evaluates := hstep.evaluates h.evaluates
  size := Nat.le_trans h.size hsize
  carries := h.carries.trans hstep

/-- Without a new constant the numbers are the same. -/
theorem step_of_consts (h : p.SameMeaning ρ q) (hsound : r.Sound) (hconsts : r.consts = q.consts)
    (hstep : q.Carries (p.extension q ρ) r (p.extension q ρ)) : p.SameMeaning ρ r := by
  have hext : p.extension r ρ = p.extension q ρ :=
    funext fun v => extension_congr fun _ _ => by rw [hconsts]
  refine h.step hsound ?_ ?_
  · rw [hconsts]
  · rw [hext]
    exact hstep

theorem push (h : p.SameMeaning ρ q) (c : Const) :
    p.SameMeaning ρ { q with consts := q.consts.push c } := by
  have hold : ∀ v, q.Knows v →
      p.extension { q with consts := q.consts.push c } ρ v = p.extension q ρ v := by
    intro v hv
    exact extension_congr (hv.get_push c)
  have hnew : p.extension { q with consts := q.consts.push c } ρ (.const q.consts.size) = c.value := by
    show (if q.consts.size < p.consts.size then ρ (.const q.consts.size)
      else ((q.consts.push c).get q.consts.size).value) = c.value
    rw [if_neg (Nat.not_lt.mpr h.size), Table.get_push, if_pos rfl]
  refine h.step (h.sound.withConsts _) ?_ (.push h.typed h.evaluates hold hnew)
  show q.consts.size ≤ (q.consts.push c).size
  rw [Table.size_push]
  exact Nat.le_succ _

/-- **Erasing a dead instruction keeps the meaning.** -/
theorem detach (h : p.SameMeaning ρ q) (hdead : q.IsDead j) : p.SameMeaning ρ (q.detach j) :=
  h.step_of_consts (h.sound.detach hdead.unused) (consts_detach q j)
    (.detach h.sound.toIntact h.typed h.evaluates hdead.isPure)

/-- The constant that a listed instruction is folded to has its number and its type. -/
theorem of_foldedConst (h : p.SameMeaning ρ q) {c : Const} (hc : foldedConst? q j = some c)
    (hj : q.Listed j) : c.value = p.extension q ρ (.instr j) ∧ c.ty = (q.instr j).ty := by
  obtain ⟨-, -, a, b, hops, hfold⟩ := foldedConst?_eq_some_iff.mp hc
  rw [foldConst_eq] at hfold
  obtain ⟨f, hf, rfl⟩ := Option.map_eq_some_iff.mp hfold
  have hty : (q.consts.get a).ty = (q.instr j).ty :=
    h.typed.typeOf_head (v := .const a) hj (Opcode.isArith_of_arith? hf) (by rw [hops]; rfl)
  have hconst : ∀ d, some (.const d) ∈ (q.instr j).operands →
      p.extension q ρ (.const d) = (q.consts.get d).value := by
    intro d hd
    exact h.evaluates.const d (h.typed.knows hj hd)
  have hvalue : q.arithValue? (p.extension q ρ) j =
      some ((q.instr j).ty.wrap (f (q.consts.get a).value (q.consts.get b).value)) := by
    rw [← hconst a (by simp [hops]), ← hconst b (by simp [hops])]
    unfold arithValue? operandValues
    rw [hf, hops]
    rfl
  refine ⟨?_, hty⟩
  rw [h.evaluates.arith j hj _ hvalue, ← hty]
  rfl

/-- **Folding keeps the meaning.** -/
theorem fold (h : p.SameMeaning ρ q) {c : Const} (hc : foldedConst? q j = some c) :
    p.SameMeaning ρ (q.fold j c) := by
  have hpush := h.push c
  have hget : (q.consts.push c).get q.consts.size = c := by rw [Table.get_push, if_pos rfl]
  have hmade : q.consts.size < (q.consts.push c).size := by simp
  have hmoved : p.SameMeaning ρ
      ({ q with consts := q.consts.push c }.redirect (.instr j) (.const q.consts.size)) := by
    refine hpush.step_of_consts (hpush.sound.redirect_const j _) (consts_redirect _ _ _) ?_
    refine .redirect hpush.sound hpush.typed hpush.evaluates hmade fun hj => ?_
    obtain ⟨hvalue, hty⟩ := h.of_foldedConst hc hj
    refine ⟨?_, ?_⟩
    · rw [hpush.evaluates.const _ hmade]
      show ((q.consts.push c).get q.consts.size).value = _
      rw [hget]
      exact hvalue
    · show ((q.consts.push c).get q.consts.size).ty = (q.instr j).ty
      rw [hget]
      exact hty
  exact hmoved.detach (isDead_of_foldedConst hc)

/-- The sweep keeps the meaning.  What waits is listed, or has been erased while it waited. -/
theorem sweepable (p : Program) (ρ : Valuation) : Sweepable (p.SameMeaning ρ)
    fun q i => (q.instr i).isErased = true ∨ q.Listed i where
  detach h _ hdead := h.detach hdead
  inBlock h hwaits hdead := by
    rcases hwaits with herased | ⟨b, hi⟩
    · rw [hdead.inPlace] at herased
      cases herased
    · exact ⟨b, (h.sound.listed b _).mp hi⟩
  operands {q i j} h hwaits hdead hj := by
    right
    rcases hwaits with herased | hi
    · rw [hdead.inPlace] at herased
      cases herased
    · obtain ⟨v, hv, hvj⟩ := List.mem_filterMap.mp hj
      obtain ⟨w, rfl, hw⟩ := h.sound.present i hi v hv
      cases w with
      | instr d =>
        obtain rfl : d = j := Option.some.inj hvj
        exact hw d rfl
      | _ => cases hvj
  waiting {q i j} h _ hwaits := by
    by_cases hij : i = j
    · left
      rw [instr_detach, if_pos hij]
      rfl
    · rcases hwaits with herased | hj
      · left
        rw [instr_detach, if_neg hij]
        exact herased
      · right
        exact h.sound.listed_detach hj (Ne.symm hij)

end SameMeaning

end Program

/-! ### Runs -/

/-- The commands that simplify a program and keep its meaning. -/
inductive Command.IsSound : Command → Prop where
  /-- Erasing an instruction if it is dead. -/
  | dce (i : InstrId) : IsSound (.dce (some i))
  /-- Folding an instruction if it is constant. -/
  | constFold (i : InstrId) : IsSound (.constFold (some i))
  /-- Sweeping a function. -/
  | sweep (f : FuncId) : IsSound (.sweep f)

variable {p : Program} {ρ : Valuation}

/-- **One command succeeds and keeps the meaning.** -/
theorem Command.IsSound.succeeds {c : Command} (hc : c.IsSound) {w : Workbench}
    (hw : p.SameMeaning ρ w.program) :
    c.run.Succeeds w fun _ w' => p.SameMeaning ρ w'.program := by
  cases hc with
  | dce i =>
    rw [Command.run, Act.Succeeds, Act.ensures_bind, Workbench.ensures_edit, Act.ensures_bind,
      Act.ensures_demand_some]
    refine (succeeds_dce i w.program).mono fun dead q hq => ?_
    rcases hq with ⟨-, rfl⟩ | ⟨-, hdead, rfl⟩
    · exact hw
    · exact hw.detach hdead
  | constFold i =>
    rw [Command.run, Act.Succeeds, Act.ensures_bind, Workbench.ensures_edit, Act.ensures_bind,
      Act.ensures_demand_some]
    refine (succeeds_constFold i w.program).mono fun v q hq => ?_
    rcases hq with rfl | ⟨c, hc, rfl⟩
    · exact hw
    · exact hw.fold hc
  | sweep f =>
    rw [Command.run, Act.Succeeds, Act.ensures_bind, Workbench.ensures_runPass]
    refine (succeeds_sweep (Program.SameMeaning.sweepable p ρ) f _ hw fun i hi => ?_).mono
      fun _ s hs => hs.1
    obtain ⟨k, hi⟩ := Program.mem_funcInstrs.mp hi
    exact .inr ⟨_, hi⟩

theorem Program.SameMeaning.runAll {w : Workbench} (hw : p.SameMeaning ρ w.program)
    {cs : List Command} (hcs : ∀ c ∈ cs, c.IsSound) : p.SameMeaning ρ (w.runAll cs).program := by
  induction cs generalizing w with
  | nil => exact hw
  | cons c cs ih =>
    rw [List.forall_mem_cons] at hcs
    obtain ⟨r, w', hrun, hw'⟩ := (hcs.1.succeeds hw).exists_eq
    rw [Workbench.runAll, hrun]
    exact ih hw' hcs.2

/-- **Folding, erasing what is dead and sweeping keep the meaning of a program.**  Let the verifier have
nothing to say about a program in which arithmetic has two operands and the type of the first one, and let
a valuation give each constant its number and all arithmetic what comes out for its operands.  Of any
commands that fold, erase or sweep none fails, and afterwards: with their numbers for the new constants
the valuation is one of what is left, which is typed as before; every instruction that is left is
the same but for its operands, and each of them has the number it had; and each block has the instructions
with side effects that it had, in their order, with what they call and where they jump to. -/
theorem runAll_keeps_meaning (w : Workbench) (hobtained : w.program.Obtained)
    (hverify : w.program.verify = []) (htyped : w.program.Typed) (ρ : Valuation)
    (hρ : w.program.Evaluates ρ) (cs : List Command) (hcs : ∀ c ∈ cs, c.IsSound) :
    let p := w.program
    let q := (w.runAll cs).program
    let σ := p.extension q ρ
    (∀ before c after, cs = before ++ c :: after → ∃ r w', c.run (w.runAll before) = (.ok r, w')) ∧
      q.Evaluates σ ∧ q.Typed ∧ p.Trims q ∧
      (∀ i, q.Listed i → q.operandValues σ i = p.operandValues ρ i) ∧
      ∀ b, q.actions b = p.actions b := by
  intro p q σ
  have hstart : p.SameMeaning ρ p := .refl (hobtained.sound hverify) htyped hρ
  have hend : p.SameMeaning ρ q := hstart.runAll hcs
  refine ⟨?_, hend.evaluates, hend.typed, hend.carries.toTrims, hend.carries.values,
    hend.carries.actions_eq⟩
  rintro before c after rfl
  have hbefore : p.SameMeaning ρ (w.runAll before).program :=
    hstart.runAll fun d hd => hcs d (by simp [hd])
  obtain ⟨r, w', hrun, -⟩ := ((hcs c (by simp)).succeeds hbefore).exists_eq
  exact ⟨r, w', hrun⟩

/-- A text with two blocks that compute from each other, and a sum that is too large for its type. -/
def circularSums : ByteArray :=
  ("func @f(%a: i8) : i8 \x7b\nentry:\n    %x = add i8 100, 100\n    %d = mul i8 %x, %a\n    br one\n" ++
    "one:\n    %s = add i8 %t, %x\n    br two\ntwo:\n    %t = sub i8 %s, %x\n" ++
    "    %c = call i8 @g(%t)\n    condbr %c, one, out\nout:\n    ret i8 %x\n\x7d\n").toUTF8

/-- One of its valuations. -/
def circularValues : Valuation
  | .const _ => 100
  | .instr 0 => -56
  | .instr 1 => 120
  | .instr 3 => -51
  | .instr 5 => 5
  | _ => 7

/-- The unused product goes, and the sum becomes a constant. -/
def circularCommands : List Command := [.dce (some 1), .constFold (some 0), .sweep 0]

theorem runAll_keeps_meaning_circular : ∃ p, Program.parse "m" circularSums = .ok p ∧
    p.verify = [] ∧ p.Typed ∧ p.Evaluates circularValues ∧
    let w : Workbench := { program := p }
    let q := (w.runAll circularCommands).program
    let σ := p.extension q circularValues
    (q.block ⟨0, 0⟩).instrs = [2] ∧
    (q.instr 3).operands = [some (.instr 5), some (.const 2)] ∧
    q.Evaluates σ ∧ q.operandValues σ 3 = [some 5, some (-56)] ∧
    q.actions ⟨0, 2⟩ = [(6, .call, "g", []), (7, .condbr, "", [⟨0, 1⟩, ⟨0, 3⟩])] := by
  obtain ⟨p, hp, hfound⟩ : ∃ p, Program.parse "m" circularSums = .ok p ∧
      (p.verify.isEmpty && decide p.Typed && decide (p.Evaluates circularValues) &&
        p.operandValues circularValues 3 == [some 5, some (-56)] &&
        p.actions ⟨0, 2⟩ == [(6, .call, "g", []), (7, .condbr, "", [⟨0, 1⟩, ⟨0, 3⟩])] &&
        ((({ program := p } : Workbench).runAll circularCommands).program.block ⟨0, 0⟩).instrs == [2] &&
        ((({ program := p } : Workbench).runAll circularCommands).program.instr 3).operands ==
          [some (.instr 5), some (.const 2)] &&
        ((({ program := p } : Workbench).runAll circularCommands).program.block ⟨0, 1⟩).instrs
          == [3, 4]) = true :=
    Program.exists_of_parse (by decide +kernel)
  simp only [Bool.and_eq_true, beq_iff_eq, decide_eq_true_eq, List.isEmpty_iff] at hfound
  obtain ⟨⟨⟨⟨⟨⟨⟨hverify, htyped⟩, hvalues⟩, hoperands⟩, hactions⟩, hblock⟩, hinstr⟩, hlisted⟩ := hfound
  have hcs : ∀ c ∈ circularCommands, c.IsSound := by
    intro c hc
    simp only [circularCommands, List.mem_cons, List.not_mem_nil, or_false] at hc
    rcases hc with rfl | rfl | rfl
    · exact .dce 1
    · exact .constFold 0
    · exact .sweep 0
  obtain ⟨-, hevaluates, -, -, hsame, hkept⟩ := runAll_keeps_meaning { program := p } (.parse hp)
    hverify htyped circularValues hvalues circularCommands hcs
  refine ⟨p, hp, hverify, htyped, hvalues, hblock, hinstr, hevaluates, ?_, ?_⟩
  · rw [hsame 3 ⟨⟨0, 1⟩, ?_⟩]
    · exact hoperands
    · rw [hlisted]
      simp
  · rw [hkept]
    exact hactions

end Midend
