import Midend.Proofs.Pass.Simplifications
import Midend.Proofs.Program.WellFormed

/-!
# What a refused call leaves behind

Most calls that change a program look first whether they may, and one that is refused has changed nothing.
Emitting is different.  The instruction is made before the insertion point is looked at, and to be made it
has to be entered in the use-lists of its operands.  If it is refused then, nobody gets hold of it, but the
use-lists still name it.  So an operand that was not used before is used from now on, and can no longer be
erased.

## Main definitions

* `Program.LeavesBehind`: a program with an instruction left over, of which only use-lists tell.
* `Command.isCall`: the commands that are one call each.
* `Command.registered`: the operands that a call enters in use-lists before it can be refused.

## Main results

* `ensures_newInstr`: making an instruction.
* `Command.refuses_run`: one call.
* `refused_call_leaves`: what every refused call leaves.
-/

namespace Midend

/-! ### Uses of an instruction that is made -/

/-- The slots of an instruction, from the index `k` on, that hold a value. -/
def slotsHolding (i : InstrId) (v : Value) : Nat → List (Option Value) → List Use
  | _, [] => []
  | k, w :: ws =>
    if w = some v then ⟨i, k⟩ :: slotsHolding i v (k + 1) ws else slotsHolding i v (k + 1) ws

section Slots

variable {i : InstrId} {v : Value}

theorem slotsHolding_eq_nil_iff (k : Nat) (ws : List (Option Value)) :
    slotsHolding i v k ws = [] ↔ some v ∉ ws := by
  induction ws generalizing k with
  | nil => simp [slotsHolding]
  | cons w ws ih =>
    rw [slotsHolding, List.mem_cons, not_or]
    split
    · next hw => simp [hw]
    · next hw =>
      rw [ih]
      exact (and_iff_right (Ne.symm hw)).symm

/-- Missing operands hold nothing. -/
theorem slotsHolding_append_replicate (k : Nat) (ws : List (Option Value)) (n : Nat) :
    slotsHolding i v k (ws ++ List.replicate n none) = slotsHolding i v k ws := by
  induction ws generalizing k with
  | nil =>
    rw [List.nil_append, slotsHolding, slotsHolding_eq_nil_iff]
    intro hmem
    cases List.eq_of_mem_replicate hmem
  | cons w ws ih => rw [List.cons_append, slotsHolding, slotsHolding, ih]

end Slots

namespace Program

theorem usesOf_registerFrom (i : InstrId) (v : Value) (k : Nat) (ws : List (Option Value)) (p : Program) :
    (p.registerFrom i k ws).usesOf v = p.usesOf v ++ slotsHolding i v k ws := by
  induction ws generalizing p k with
  | nil => exact (List.append_nil _).symm
  | cons w ws ih =>
    cases w with
    | none =>
      rw [registerFrom, ih, slotsHolding, if_neg (Option.some_ne_none v).symm]
    | some w =>
      rw [registerFrom, ih, usesOf_addUse, slotsHolding]
      by_cases hwv : w = v
      · subst hwv
        rw [if_pos rfl, if_pos rfl, List.append_assoc, List.singleton_append]
      · rw [if_neg hwv, if_neg fun h => hwv (Option.some.inj h)]

/-- The program `q` is `p` with an instruction left over that has the operands `vs` and is in no block.
Nothing tells of it but the use-lists of its operands. -/
structure LeavesBehind (p q : Program) (vs : List (Option Value)) : Prop where
  /-- Functions with their blocks and counters, globals, parameters, constants and links are the same. -/
  rest : ∃ is us, q = { p with instrs := is, uses := us }
  /-- So are the instructions that were there. -/
  instr : ∀ i < p.instrs.size, q.instr i = p.instr i
  /-- The slots of the instruction that is left over are listed behind all others. -/
  uses : ∀ v, q.usesOf v = p.usesOf v ++ slotsHolding p.instrs.size v 0 vs

namespace LeavesBehind

variable {p q : Program} {vs : List (Option Value)}

theorem refl (p : Program) : p.LeavesBehind p [] :=
  ⟨⟨_, _, rfl⟩, fun _ _ => rfl, fun _ => (List.append_nil _).symm⟩

/-- What becomes of the instruction that is left over makes no difference, apart from its operands. -/
theorem modifyInstr (h : p.LeavesBehind q vs) (g : Instr → Instr) :
    p.LeavesBehind (q.modifyInstr p.instrs.size g) vs := by
  obtain ⟨⟨is, us, rfl⟩, hinstr, huses⟩ := h
  refine ⟨⟨_, _, rfl⟩, fun i hi => ?_, huses⟩
  rw [instr_modifyInstr_of_ne (Nat.ne_of_gt hi)]
  exact hinstr i hi

/-- A use-list is the same just if its value is no operand. -/
theorem usesOf_eq_iff (h : p.LeavesBehind q vs) (v : Value) :
    q.usesOf v = p.usesOf v ↔ some v ∉ vs := by
  rw [h.uses, List.append_right_eq_self, slotsHolding_eq_nil_iff]

/-- An operand that was there is still there, and it is used. -/
theorem not_erased_and_used (h : p.LeavesBehind q vs) {i : InstrId} (hi : i < p.instrs.size)
    (hvs : some (.instr i) ∈ vs) (hlive : (p.instr i).isErased = false) :
    (q.instr i).isErased = false ∧ q.usesOf (.instr i) ≠ [] := by
  rw [h.instr i hi, h.uses]
  refine ⟨hlive, List.append_ne_nil_of_right_ne_nil _ fun hnil => ?_⟩
  exact (slotsHolding_eq_nil_iff 0 vs).mp hnil hvs

end LeavesBehind

end Program

/-! ### Making instructions -/

open Program

variable {p : Program}

/-- An instruction that is made enters its operands in use-lists up to the first missing one. -/
theorem leavesBehind_assign {x : Instr} (hops : x.operands = []) (vs : List (Option Value)) (n : Nat) :
    p.LeavesBehind ((((p.addInstr x).2).dropOperands p.instrs.size).assignOperands p.instrs.size
      (vs ++ List.replicate n none)) vs := by
  have hbare : ((p.addInstr x).2.instr p.instrs.size).operands = [] := by
    rw [instr_addInstr, if_pos rfl, hops]
  refine ⟨?_, fun i hi => ?_, fun v => ?_⟩
  · obtain ⟨us, heq⟩ := exists_registerFrom p.instrs.size 0 (vs ++ List.replicate n none)
      ((((p.addInstr x).2).dropOperands p.instrs.size).modifyInstr p.instrs.size fun x =>
        { x with operands := vs ++ List.replicate n none })
    obtain ⟨is, us', heq'⟩ := (p.addInstr x).2.exists_dropOperands p.instrs.size
    rw [assignOperands, heq, heq']
    exact ⟨_, _, rfl⟩
  · rw [instr_assignOperands, if_neg (Nat.ne_of_gt hi), instr_dropOperands, if_neg (Nat.ne_of_gt hi),
      instr_addInstr, if_neg (Nat.ne_of_lt hi)]
  · rw [assignOperands, usesOf_registerFrom, usesOf_modifyInstr, dropOperands, hbare, usesOf_modifyInstr,
      unregisterFrom, slotsHolding_append_replicate]
    rfl

/-- **Making an instruction,** whether an operand is missing or not. -/
theorem ensures_newInstr {x : Instr} (hops : x.operands = []) (vs : List (Option Value)) (p : Program) :
    (newInstr x vs).Ensures p
      (fun i q => i = p.instrs.size ∧ p.LeavesBehind q (vs.takeWhile Option.isSome))
      fun _ q => p.LeavesBehind q (vs.takeWhile Option.isSome) := by
  have hleft := leavesBehind_assign (p := p) hops (vs.takeWhile Option.isSome)
    (vs.length - (vs.takeWhile Option.isSome).length)
  unfold newInstr setOperands
  rw [Act.ensures_bind, Act.ensures_modifyGet]
  simp only [Act.ensures_bind, Act.ensures_modify]
  split
  · exact hleft
  · exact ⟨rfl, hleft⟩

/-! ### Calls that look first -/

/-- What is refused a place has changed nothing. -/
theorem ensures_append (b : BlockRef) (i : InstrId) (p : Program) :
    (append b i).Ensures p (fun _ _ => True) fun _ q => q = p := by
  unfold append checkDetached
  simp only [Act.ensures_bind, Act.ensures_get]
  split
  · exact rfl
  · show Act.Ensures (if _ then _ else _ : Edit Unit) p _ _
    split
    · exact rfl
    · exact trivial

theorem ensures_insertBefore (b : BlockRef) (i pos : Option InstrId) (p : Program) :
    (insertBefore b i pos).Ensures p (fun _ _ => True) fun _ q => q = p := by
  unfold insertBefore checkDetached
  cases pos with
  | none => exact rfl
  | some pos =>
    rw [Act.ensures_bind, Act.ensures_demand_some, Act.ensures_bind, Act.ensures_get]
    split
    · exact rfl
    · cases i with
      | none => exact rfl
      | some i =>
        simp only [Act.ensures_bind, Act.ensures_demand_some, Act.ensures_get]
        split
        · exact rfl
        · exact trivial

theorem ensures_setOperand (i : InstrId) (index : Int) (v : Option Value) (p : Program) :
    (setOperand i index v).Ensures p (fun _ _ => True) fun _ q => q = p := by
  unfold setOperand operandAt
  cases v with
  | none => exact rfl
  | some v =>
    simp only [Act.ensures_bind, Act.ensures_discard, Act.ensures_get]
    split
    · exact rfl
    · cases (p.instr i).operands[index.toNat]? with
      | none => exact rfl
      | some _ => exact trivial

/-- What is used is not erased, and stays as it is. -/
theorem ensures_erase (i : InstrId) (p : Program) : (erase i).Ensures p
    (fun r q => ∀ label uses, r = .inUse label uses → q = p) fun _ q => q = p := by
  have hrun := erase_run i p
  split at hrun
  · exact (Act.ensures_of_run hrun).mpr fun _ _ _ => rfl
  · split at hrun
    · exact (Act.ensures_of_run hrun).mpr fun _ _ _ => rfl
    · refine (Act.ensures_of_run hrun).mpr fun _ _ hr => ?_
      cases hr

theorem ensures_forceErase (i : InstrId) (p : Program) :
    (forceErase i).Ensures p (fun _ _ => True) fun _ q => q = p := by
  unfold forceErase
  rw [Act.ensures_bind]
  refine (ensures_erase i p).mono (fun r q hq => ?_) fun _ _ => id
  cases r with
  | erased => exact trivial
  | inUse label uses => exact hq label uses rfl

/-! ### Emitting -/

/-- An instruction that is refused at the insertion point stays as it is. -/
theorem ensures_emit (at? : InsertionPoint) (i : InstrId) (p : Program) :
    (emit at? i).Ensures p (fun _ _ => True) fun _ q => q = p := by
  unfold emit
  cases at? with
  | none => exact rfl
  | some b =>
    rw [Act.ensures_bind, Act.ensures_demand_some, Act.ensures_bind, Act.ensures_get]
    split
    · exact rfl
    · rw [Act.ensures_bind]
      exact (ensures_append b i p).mono (fun _ _ _ => trivial) fun _ _ => id

section Emit

variable {x : Instr} (hops : x.operands = []) (vs : List (Option Value)) (at? : InsertionPoint) (p : Program)

include hops

/-- Emits an instruction that was just made. -/
theorem ensures_emit_newInstr : (newInstr x vs >>= emit at?).Ensures p (fun _ _ => True)
    fun _ q => p.LeavesBehind q (vs.takeWhile Option.isSome) := by
  rw [Act.ensures_bind]
  refine (ensures_newInstr hops vs p).mono (fun i q hq => ?_) fun _ _ => id
  refine (ensures_emit at? i q).mono (fun _ _ _ => trivial) ?_
  rintro _ _ rfl
  exact hq.2

/-- Emits an instruction that takes an element type from one of its operands. -/
theorem ensures_emit_setElem (v : Option Value) : (do
      let i ← newInstr x vs
      let ty ← operandType v
      modify (·.modifyInstr i fun c => { c with elem := ty })
      emit at? i : Edit InstrId).Ensures p (fun _ _ => True)
    fun _ q => p.LeavesBehind q (vs.takeWhile Option.isSome) := by
  rw [Act.ensures_bind]
  refine (ensures_newInstr hops vs p).mono (fun i q hq => ?_) fun _ _ => id
  obtain ⟨rfl, hq⟩ := hq
  unfold operandType
  rw [Act.ensures_bind, Act.ensures_bind]
  cases v with
  | none => exact hq
  | some v =>
    rw [Act.ensures_demand_some, Act.ensures_bind, Act.ensures_get, Act.ensures_pure, Act.ensures_bind,
      Act.ensures_modify]
    refine (ensures_emit at? _ _).mono (fun _ _ _ => trivial) ?_
    rintro _ _ rfl
    exact hq.modifyInstr _

end Emit

/-- Emits arithmetic, for which the operation is looked at first. -/
theorem ensures_emitBinary (at? : InsertionPoint) (op : Opcode) (name : String) (x y : Option Value)
    (p : Program) : (emitBinary at? op name x y).Ensures p (fun _ _ => True) fun _ q =>
      p.LeavesBehind q ((if !op.isBinary || op = .cmp then [] else [x, y]).takeWhile Option.isSome) := by
  unfold emitBinary
  split
  · exact .refl p
  · unfold operandType
    rw [Act.ensures_bind, Act.ensures_bind]
    cases x with
    | none => exact .refl p
    | some x =>
      rw [Act.ensures_demand_some, Act.ensures_bind, Act.ensures_get, Act.ensures_pure]
      exact ensures_emit_newInstr rfl [some x, y] at? p

/-! ### Calls -/

namespace Command

/-- The commands that are one call each: making an instruction, putting it in its place, emitting one,
replacing an operand and erasing. -/
def isCall : Command → Bool
  | .newInstr _ _ | .append _ _ | .insertBefore _ _ _ | .binary _ _ _ _ | .cmp _ _ _ | .alloca _ _
  | .load _ _ _ | .store _ _ | .call _ _ _ _ | .br _ | .condBr _ _ _ | .ret _ | .setOperand _ _ _
  | .erase _ | .forceErase _ => true
  | _ => false

/-- The command fails, or an instruction is not erased because it is used. -/
def Fails (c : Command) (w : Workbench) : Prop :=
  (∃ e, (c.run w).1 = .error e) ∨
    ∃ label uses, (c.run w).1 = .ok (.erasing (.inUse label uses))

/-- The operands of the instruction that a call makes. -/
def made : Command → List (Option Value)
  | .newInstr _ vs | .call _ _ _ vs => vs
  | .binary op _ x y => if !op.isBinary || op = .cmp then [] else [x, y]
  | .cmp _ x y | .store x y => [x, y]
  | .load _ _ v | .condBr v _ _ => [v]
  | .ret v => v.toList.map some
  | _ => []

/-- Those of them that are entered in use-lists, up to the first missing one. -/
def registered (c : Command) : List (Option Value) := c.made.takeWhile Option.isSome

end Command

/-- Where instructions are emitted is the same, and the program is the same but for an instruction that is
left over. -/
def Workbench.LeavesBehind (w w' : Workbench) (vs : List (Option Value)) : Prop :=
  w'.insertAt = w.insertAt ∧ w.program.LeavesBehind w'.program vs

/-- What comes of an action that may be refused. -/
def Workbench.Refuses (w : Workbench) (m : Act Workbench Reply) (vs : List (Option Value)) : Prop :=
  m.Ensures w (fun r w' => ∀ label uses, r = .erasing (.inUse label uses) → w.LeavesBehind w' vs)
    fun _ w' => w.LeavesBehind w' vs

namespace Workbench.Refuses

variable {w : Workbench} {vs : List (Option Value)}

theorem emitting {e : InsertionPoint → Edit InstrId}
    (h : (e w.insertAt).Ensures w.program (fun _ _ => True) fun _ q => w.program.LeavesBehind q vs) :
    w.Refuses (Workbench.emitting e) vs := by
  unfold Refuses Workbench.emitting
  rw [Act.ensures_bind, Act.ensures_get, Act.ensures_bind, Workbench.ensures_edit]
  refine h.mono (fun _ _ _ => ?_) fun _ _ hq => ⟨rfl, hq⟩
  intro label uses hr
  cases hr

/-- An edit that is refused only where it has changed nothing. -/
theorem edit {e : Edit Unit} (h : e.Ensures w.program (fun _ _ => True) fun _ q => q = w.program) :
    w.Refuses (do
      Workbench.edit e
      return .done) [] := by
  unfold Refuses
  rw [Act.ensures_bind, Workbench.ensures_edit]
  refine h.mono (fun _ _ _ => ?_) ?_
  · intro label uses hr
    cases hr
  · rintro _ _ rfl
    exact ⟨rfl, .refl _⟩

/-- The same of an edit of an instruction that may be missing. -/
theorem demanded {e : InstrId → Edit Unit} (i : Option InstrId)
    (h : ∀ i, (e i).Ensures w.program (fun _ _ => True) fun _ q => q = w.program) :
    w.Refuses (do
      Workbench.edit (Act.demand i >>= e)
      return .done) [] := by
  refine .edit ?_
  cases i with
  | none => exact rfl
  | some i => exact h i

end Workbench.Refuses

/-- **One call.** -/
theorem Command.refuses_run {c : Command} (hc : c.isCall = true) (w : Workbench) :
    w.Refuses c.run c.registered := by
  cases c with
  | newInstr x vs =>
    unfold Workbench.Refuses
    rw [Command.run, Act.ensures_bind, Workbench.ensures_edit]
    refine (ensures_newInstr rfl vs w.program).mono (fun _ _ _ => ?_) fun _ _ hq => ⟨rfl, hq⟩
    intro label uses hr
    cases hr
  | append b i => exact .demanded i fun i => ensures_append b i w.program
  | insertBefore b i pos => exact .edit (ensures_insertBefore b i pos w.program)
  | binary op name x y =>
    exact .emitting (e := (emitBinary · op name x y)) (ensures_emitBinary _ op name x y _)
  | cmp name x y =>
    exact .emitting (e := (emitCmp · name x y)) (ensures_emit_setElem rfl [x, y] _ _ x)
  | alloca name elem =>
    exact .emitting (e := (emitAlloca · name elem)) (ensures_emit_newInstr rfl [] _ _)
  | load name elem ptr =>
    exact .emitting (e := (emitLoad · name elem ptr)) (ensures_emit_newInstr rfl [ptr] _ _)
  | store v ptr =>
    exact .emitting (e := (emitStore · v ptr)) (ensures_emit_setElem rfl [v, ptr] _ _ v)
  | call name ret callee args =>
    exact .emitting (e := (emitCall · name ret callee args)) (ensures_emit_newInstr rfl args _ _)
  | br target => exact .emitting (e := (emitBr · target)) (ensures_emit_newInstr rfl [] _ _)
  | condBr cond yes no =>
    exact .emitting (e := (emitCondBr · cond yes no)) (ensures_emit_newInstr rfl [cond] _ _)
  | ret v =>
    exact .emitting (e := (emitRet · v)) (ensures_emit_newInstr rfl (v.toList.map some) _ _)
  | setOperand i index v => exact .demanded i fun i => ensures_setOperand i index v w.program
  | erase i =>
    unfold Workbench.Refuses
    rw [Command.run, Act.ensures_bind, Workbench.ensures_edit, Act.ensures_bind]
    cases i with
    | none => exact ⟨rfl, .refl _⟩
    | some i =>
      rw [Act.ensures_demand_some]
      refine (ensures_erase i w.program).mono (fun r q hq => ?_) ?_
      · intro label uses hr
        obtain rfl := Reply.erasing.inj hr
        obtain rfl := hq label uses rfl
        exact ⟨rfl, .refl _⟩
      · rintro _ _ rfl
        exact ⟨rfl, .refl _⟩
  | forceErase i => exact .demanded i fun i => ensures_forceErase i w.program
  | _ => cases hc

/-- **What a refused call leaves,** whatever the program and whatever the call: making an instruction,
putting it in its place, emitting one, replacing an operand or erasing.  All instructions that were there
have their operands, their numbers and their places, all blocks have their lists, and functions, globals,
parameters and constants are the same.  But the use-list of a value is the same just if the value is not an
operand of an instruction that was made before the call was refused; else it ends in the slots of that
instruction.  From then on such an operand can be erased neither by hand nor as dead code. -/
theorem refused_call_leaves {c : Command} {w : Workbench} (hc : c.isCall = true) (hfails : c.Fails w) :
    let w' := (c.run w).2
    w.LeavesBehind w' c.registered ∧
    (∀ v, w'.program.usesOf v = w.program.usesOf v ↔ some v ∉ c.registered) ∧
    ∀ i < w.program.instrs.size, some (.instr i) ∈ c.registered →
      (w.program.instr i).isErased = false →
      (∃ label uses, (Command.erase (some i)).run w' = (.ok (.erasing (.inUse label uses)), w')) ∧
      (Command.dce (some i)).run w' = (.ok (.flag false), w') := by
  intro w'
  have hleft : w.LeavesBehind w' c.registered := by
    have hrun := Command.refuses_run hc w
    unfold Workbench.Refuses Act.Ensures at hrun
    rcases hfails with ⟨e, he⟩ | ⟨label, uses, hr⟩
    · rw [show c.run w = (.error e, w') from Prod.ext he rfl] at hrun
      exact hrun
    · rw [show c.run w = (.ok (.erasing (.inUse label uses)), w') from Prod.ext hr rfl] at hrun
      exact hrun label uses rfl
  refine ⟨hleft, hleft.2.usesOf_eq_iff, fun i hi hmem hlive => ?_⟩
  obtain ⟨hlive', hused⟩ := hleft.2.not_erased_and_used hi hmem hlive
  constructor
  · have herase := erase_run i w'.program
    rw [if_neg (Bool.eq_false_iff.mp hlive'), if_pos hused] at herase
    have hrun : (Command.erase (some i)).run.Succeeds w' fun r u =>
        (∃ label uses, r = .erasing (.inUse label uses)) ∧ u = w' := by
      rw [Act.Succeeds, Command.run, Act.ensures_bind, Workbench.ensures_edit, Act.ensures_bind,
        Act.ensures_demand_some, Act.ensures_of_run herase]
      exact ⟨⟨_, _, rfl⟩, rfl⟩
    obtain ⟨_, _, heq, ⟨label, uses, rfl⟩, rfl⟩ := hrun.exists_eq
    exact ⟨label, uses, heq⟩
  · have hdce := dce_run i w'.program
    rw [if_neg fun hdead => hused hdead.unused] at hdce
    have hrun : (Command.dce (some i)).run.Succeeds w' fun r u => r = .flag false ∧ u = w' := by
      rw [Act.Succeeds, Command.run, Act.ensures_bind, Workbench.ensures_edit, Act.ensures_bind,
        Act.ensures_demand_some, Act.ensures_of_run hdce]
      exact ⟨rfl, rfl⟩
    obtain ⟨_, _, heq, rfl, rfl⟩ := hrun.exists_eq
    exact heq

/-- Commands that end a block behind an instruction that is not used. -/
def ended : List Command :=
  [.addFunc "f" .void, .addParam 0 "a" .i64, .addBlock 0 "entry", .addConst .i64 1, .moveTo ⟨0, 0⟩,
    .binary .add "x" (some (.param 0)) (some (.const 0)), .ret none]

/-- A return behind the end of a block is refused, and the value it was to return is used. -/
theorem refused_call_leaves_ended :
    let w := ({ program := .empty "m" } : Workbench).runAll ended
    let c := Command.ret (some (.instr 0))
    c.isCall = true ∧ c.Fails w ∧ w.program.usesOf (.instr 0) = [] ∧
      (c.run w).2.program.usesOf (.instr 0) = [⟨2, 0⟩] ∧
      ∃ label uses, (Command.erase (some 0)).run (c.run w).2 =
        (.ok (.erasing (.inUse label uses)), (c.run w).2) := by
  intro w c
  have hfacts : ((c.run w).1.toBool == false && w.program.usesOf (.instr 0) == [] &&
      w.program.instrs.size == 2 && (w.program.instr 0).isErased == false) = true := by decide +kernel
  simp only [Bool.and_eq_true, beq_iff_eq] at hfacts
  obtain ⟨⟨⟨hbool, hunused⟩, hsize⟩, hlive⟩ := hfacts
  have hfails : c.Fails w := by
    left
    cases hr : (c.run w).1 with
    | error e => exact ⟨e, rfl⟩
    | ok r =>
      rw [hr] at hbool
      cases hbool
  obtain ⟨hleft, -, hkept⟩ := @refused_call_leaves c w rfl hfails
  refine ⟨rfl, hfails, hunused, ?_, (hkept 0 (hsize ▸ Nat.two_pos) List.mem_cons_self hlive).1⟩
  rw [hleft.2.uses, hunused, hsize]
  rfl

end Midend
