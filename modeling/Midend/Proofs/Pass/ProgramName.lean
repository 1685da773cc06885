import Midend.Load
import Midend.Proofs.Flow.SolverRounds
import Midend.Proofs.Program.UseLists

/-!
# The name of a program does not matter

The name of a program occurs in messages only.  Parsing and optimizing a text under two names gives the
same program, up to the name, the same counters and the same trace.

An action that does not look at a part of its state does the same from two states that differ there.
That is said once for all ways to put actions together, and then holds of every pass.

## Main definitions

* `Program.named`, `Session.named`: a program, or that of a session, under another name.
* `Act.Respects`: an action does not look at what a function changes.
* `Source.Resolver.Ignores`: the same for the resolver.

## Main results

* `respects_rewritePass`: the passes do not look at the name.
* `parse_named`: neither does the parser.
-/

namespace Midend

/-- The program under another name. -/
def Program.named (name : String) (p : Program) : Program := { p with name := name }

/-- The session with its program under another name. -/
def Session.named (name : String) (s : Session) : Session :=
  { s with program := s.program.named name }

/-! ### Actions -/

namespace Act

variable {σ α β : Type} {f : σ → σ}

/-- From a changed state the action does what it does from the state itself, and leaves what it leaves
there, changed. -/
def Respects (f : σ → σ) (m : Act σ α) : Prop := ∀ s, m (f s) = ((m s).1, f (m s).2)

namespace Respects

theorem pure (a : α) : Respects f (pure a : Act σ α) := fun _ => rfl

theorem throw (e : Fault) : Respects f (throw e : Act σ α) := fun _ => rfl

theorem demand (o : Option α) : Respects f (demand o : Act σ α) := by
  cases o with
  | none => exact .throw _
  | some a => exact .pure a

theorem ofExcept (r : Except Fault α) : Respects f (ofExcept r : Act σ α) := by
  cases r with
  | error e => exact .throw e
  | ok a => exact .pure a

theorem modify {g : σ → σ} (h : ∀ s, g (f s) = f (g s)) : Respects f (modify g : Act σ PUnit) := by
  intro s
  show (Except.ok PUnit.unit, g (f s)) = (Except.ok PUnit.unit, f (g s))
  rw [h]

theorem modifyGet {g : σ → α × σ} (h : ∀ s, g (f s) = ((g s).1, f (g s).2)) :
    Respects f (modifyGet g : Act σ α) := by
  intro s
  show (Except.ok (g (f s)).1, (g (f s)).2) = (Except.ok (g s).1, f (g s).2)
  rw [h]

theorem bind {m : Act σ α} {k : α → Act σ β} (hm : Respects f m) (hk : ∀ a, Respects f (k a)) :
    Respects f (m >>= k) := by
  intro s
  have hs := hm s
  cases h : m s with
  | mk r s' =>
    rw [h] at hs
    cases r with
    | error e => rw [bind_of_error hs, bind_of_error h]
    | ok a => rw [bind_of_ok hs, bind_of_ok h, hk a s']

theorem discard {m : Act σ α} (hm : Respects f m) : Respects f (discard m) := by
  have heq : (Functor.discard m : Act σ PUnit) = m >>= fun _ => Pure.pure PUnit.unit := by
    rw [bind_pure_comp]
    rfl
  rw [heq]
  exact hm.bind fun _ => .pure _

/-- Reading what the change leaves alone. -/
theorem read {k : σ → Act σ β} (hread : ∀ s, k (f s) = k s) (hk : ∀ s, Respects f (k s)) :
    Respects f (get >>= k) := by
  intro s
  show k (f s) (f s) = _
  rw [hread, hk s s]
  rfl

end Respects

end Act

open Act (Respects)

variable (name : String)

/-! ### Edits -/

section Edits

theorem respects_operandAt (i : InstrId) (index : Int) :
    Respects (Program.named name) (operandAt i index) := by
  refine .read (fun _ => rfl) fun p => ?_
  split
  · exact .throw _
  · exact .demand _

theorem respects_moveUses (new : Option Value) (slots : List Use) :
    Respects (Program.named name) (moveUses new slots) := by
  induction slots with
  | nil => exact .pure ()
  | cons slot slots ih =>
    rw [moveUses]
    refine .bind (.modify ?_) fun _ => .bind (.demand new) fun _ => .bind (.modify ?_) fun _ => ih
    · exact fun _ => rfl
    · exact fun _ => rfl

theorem respects_replaceAllUses (old new : Option Value) :
    Respects (Program.named name) (replaceAllUses old new) := by
  unfold replaceAllUses
  split
  · exact .pure ()
  · refine .bind (.demand old) fun v => .read (fun _ => rfl) fun p => ?_
    exact .bind (.modify fun _ => rfl) fun _ => respects_moveUses name new (p.usesOf v)

theorem named_replaceOperand (p : Program) (slot : Use) (v : Value) :
    (p.named name).replaceOperand slot v = (p.replaceOperand slot v).named name := by
  have hslot : (p.named name).readSlot slot = p.readSlot slot := rfl
  rw [Program.replaceOperand, Program.replaceOperand, hslot]
  cases p.readSlot slot <;> rfl

theorem respects_setOperand (i : InstrId) (index : Int) (v : Option Value) :
    Respects (Program.named name) (setOperand i index v) := by
  cases v with
  | none => exact .read (fun _ => rfl) fun p => .throw _
  | some v =>
    exact (respects_operandAt name i index).discard.bind fun _ =>
      .modify fun p => named_replaceOperand name p _ v

theorem named_unregisterFrom (p : Program) (i : InstrId) (k : Nat) (vs : List (Option Value)) :
    (p.named name).unregisterFrom i k vs = (p.unregisterFrom i k vs).named name := by
  induction vs generalizing p k with
  | nil => rfl
  | cons v vs ih =>
    cases v with
    | none => exact ih p (k + 1)
    | some v => exact ih (p.removeUse v ⟨i, k⟩) (k + 1)

theorem named_unlink (p : Program) (b : BlockRef) (i : InstrId) :
    (p.named name).unlink b i = (p.unlink b i).named name := by
  have hprev : (p.named name).prev? i = p.prev? i := rfl
  have hnext : (p.named name).next? i = p.next? i := rfl
  rw [Program.unlink, Program.unlink, hprev, hnext]
  cases p.prev? i <;> cases p.next? i <;> rfl

theorem named_detach (p : Program) (i : InstrId) :
    (p.named name).detach i = (p.detach i).named name := by
  have hdrop : (p.named name).dropOperands i = (p.dropOperands i).named name := by
    rw [Program.dropOperands, Program.dropOperands]
    have hoperands : ((p.named name).instr i).operands = (p.instr i).operands := rfl
    rw [hoperands, named_unregisterFrom]
    rfl
  have hinstr : (p.named name).instr i = p.instr i := rfl
  rw [Program.detach, Program.detach, hdrop, hinstr]
  cases (p.instr i).place.block? with
  | none => rfl
  | some b =>
    dsimp only
    rw [← named_unlink]
    rfl

theorem respects_erase (i : InstrId) : Respects (Program.named name) (erase i) := by
  intro p
  have hinstr : (p.named name).instr i = p.instr i := rfl
  have huses : (p.named name).usesOf (.instr i) = p.usesOf (.instr i) := rfl
  rw [Program.erase_run, Program.erase_run, hinstr, huses, named_detach]
  split
  · rfl
  · split <;> rfl

theorem respects_forceErase (i : InstrId) : Respects (Program.named name) (forceErase i) := by
  refine (respects_erase name i).bind fun outcome => ?_
  cases outcome with
  | erased => exact .pure ()
  | inUse label uses => exact .throw _

theorem respects_storeValue (i : InstrId) : Respects (Program.named name) (storeValue i) := by
  refine .read (fun _ => rfl) fun p => ?_
  dsimp only
  split
  · exact respects_operandAt name i 0
  · exact .throw _

theorem respects_pointer (i : InstrId) : Respects (Program.named name) (pointer i) := by
  refine .read (fun _ => rfl) fun p => ?_
  dsimp only
  split
  · exact respects_operandAt name i 0
  · exact respects_operandAt name i 1
  · exact .throw _

/-! ### Simplifications -/

theorem respects_dce (i : InstrId) : Respects (Program.named name) (dce i) := by
  refine .read (fun _ => rfl) fun p => ?_
  dsimp only
  split
  · exact .pure false
  · exact (respects_forceErase name i).bind fun _ => .pure true

theorem respects_constFold (i : InstrId) : Respects (Program.named name) (constFold i) := by
  refine .read (fun _ => rfl) fun p => ?_
  dsimp only
  split
  · exact .pure _
  · exact (Respects.modifyGet fun _ => rfl).bind fun c =>
      (respects_replaceAllUses name _ _).bind fun _ => (respects_forceErase name i).bind fun _ => .pure _

theorem respects_cse (v : Option Value) : Respects (Program.named name) (cse v) := by
  unfold cse
  split
  · next i =>
    refine .read (fun _ => rfl) fun p => ?_
    dsimp only
    split
    · exact .pure false
    · next a b _ =>
      refine .read (fun _ => rfl) fun q => .read (fun _ => rfl) fun r => ?_
      refine (respects_replaceAllUses name _ _).bind fun _ => (respects_setOperand name _ _ _).bind fun _ =>
        (respects_erase name a).discard.bind fun _ => ?_
      split
      · exact (respects_dce name _).discard.bind fun _ => .pure true
      · exact .bind (.pure ()) fun _ => .pure true
  · exact .pure false

end Edits

/-! ### The solver -/

namespace Flow

variable {σ S : Type} {f : σ → σ} (prob : Problem σ S) (p : Program) (g : Graph EdgeList)
  {onChange : BlockRef → S → Act σ Unit}

theorem respects_solveFrom (hgen : ∀ b, Respects f (prob.gen b))
    (hkill : ∀ b gen, Respects f (prob.kill b gen)) (hchange : ∀ b out, Respects f (onChange b out))
    (hjumps : ∀ s b, (prob.program (f s)).successors b = (prob.program s).successors b)
    (sol : Solution S) (stack : List BlockRef) : Respects f (solveFrom prob p g onChange sol stack) := by
  induction sol, stack using solveFrom.induct prob g with
  | case1 sol =>
    rw [solveFrom]
    exact .pure sol
  | case2 sol b stack hold ih =>
    simp only [solveFrom_cons, visitTop, hold]
    exact ih
  | case3 sol b stack old hold inn ihEqual ihChange =>
    simp only [solveFrom_cons, visitTop, hold]
    refine .bind (hgen b) fun gen => .bind (hkill b gen) fun kill => ?_
    split
    · exact ihEqual gen kill
    · next heq =>
      split
      · next hinc =>
        refine .bind (hchange b _) fun _ => .read (fun s => ?_) fun s => ihChange gen kill heq hinc s
        rw [hjumps]
      · exact .throw _

/-- Of the program the solver looks at the jumps and the labels of blocks. -/
theorem solveFrom_named (name : String) (sol : Solution S) (stack : List BlockRef) :
    solveFrom prob (p.named name) g onChange sol stack = solveFrom prob p g onChange sol stack := by
  induction sol, stack using solveFrom.induct prob g with
  | case1 sol => rw [solveFrom, solveFrom]
  | case2 sol b stack hold ih =>
    simp only [solveFrom_cons, visitTop, hold]
    exact ih
  | case3 sol b stack old hold inn ihEqual ihChange =>
    simp only [solveFrom_cons, visitTop, hold]
    refine bind_congr fun gen => bind_congr fun kill => ?_
    split
    · exact ihEqual gen kill
    · next heq =>
      split
      · next hinc => exact bind_congr fun _ => bind_congr fun s => ihChange gen kill heq hinc s
      · rfl

theorem solveReachingStores_named (name : String) (fn : FuncId) (read : σ → Program)
    (onChange : BlockRef → InstrSet p.instrs.size → Act σ Unit) :
    solveReachingStores (p.named name) fn read onChange = solveReachingStores p fn read onChange :=
  bind_congr fun g => solveFrom_named (reachingStores p.instrs.size read) p g name _ _

theorem respects_solveReachingStores (fn : FuncId) {read : σ → Program}
    {onChange : BlockRef → InstrSet p.instrs.size → Act σ Unit}
    (hread : ∀ s, ∃ name, read (f s) = (read s).named name)
    (hchange : ∀ b out, Respects f (onChange b out)) :
    Respects f (solveReachingStores p fn read onChange) := by
  have hgen (b : BlockRef) : Respects f ((reachingStores p.instrs.size read).gen b) := by
    refine Respects.read (k := fun s => pure (genSet _ (read s) b)) (fun s => ?_) fun _ => .pure _
    obtain ⟨name, hs⟩ := hread s
    rw [hs]
    rfl
  have hkill (b : BlockRef) (gen : InstrSet p.instrs.size) :
      Respects f ((reachingStores p.instrs.size read).kill b gen) := by
    refine Respects.read (k := fun s => Act.ofExcept (killSet _ (read s) b)) (fun s => ?_) fun _ =>
      .ofExcept _
    obtain ⟨name, hs⟩ := hread s
    rw [hs]
    rfl
  refine .bind (.ofExcept _) fun g => respects_solveFrom _ p g hgen hkill hchange (fun s b => ?_) _ _
  obtain ⟨name, hs⟩ := hread s
  change (read (f s)).successors b = (read s).successors b
  rw [hs]
  rfl

end Flow

/-! ### Passes -/

namespace Pass

variable {α : Type}

theorem respects_edit {e : Edit α} (h : Respects (Program.named name) e) :
    Respects (Session.named name) (Pass.edit e) := by
  intro s
  have hs := h s.program
  show ((e (s.program.named name)).1, { s with program := (e (s.program.named name)).2 }) = _
  rw [hs]
  rfl

theorem respects_program {k : Program → Pass α} (hread : ∀ p, k (p.named name) = k p)
    (hk : ∀ p, Respects (Session.named name) (k p)) :
    Respects (Session.named name) (Pass.program >>= k) := by
  intro s
  show k (s.program.named name) (s.named name) = _
  rw [hread, hk s.program s]
  rfl

theorem respects_count (f : Stats → Stats) : Respects (Session.named name) (Pass.count f) :=
  .modify fun _ => rfl

theorem respects_visit (v : Visit) : Respects (Session.named name) (Pass.visit v) :=
  .modify fun _ => rfl

theorem respects_log (r : LogRecord) : Respects (Session.named name) (Pass.log r) :=
  .modify fun _ => rfl

theorem respects_logChange (message pass : String) (b : BlockRef) (v : Value)
    (more : List (String × String)) :
    Respects (Session.named name) (Pass.logChange message pass b v more) :=
  respects_program name (fun _ => by cases v <;> rfl) fun _ => respects_log name _

theorem respects_anyOf {f : α → Pass Bool} (hf : ∀ a, Respects (Session.named name) (f a))
    (l : List α) : Respects (Session.named name) (Pass.anyOf f l) := by
  induction l with
  | nil => exact .pure false
  | cons a l ih => exact (hf a).bind fun _ => ih.bind fun _ => .pure _

end Pass

open Pass

theorem respects_visitInstr (b : BlockRef) (i : InstrId) :
    Respects (Session.named name) (visitInstr b i) := by
  refine respects_program name (fun _ => rfl) fun p => ?_
  split
  · exact .pure false
  · refine (respects_edit name (respects_dce name i)).bind fun erased => ?_
    split
    · exact (respects_count name _).bind fun _ => (respects_logChange name _ _ b _ _).bind fun _ => .pure true
    · refine (respects_edit name (respects_constFold name i)).bind fun v => ?_
      have hmerge (folded : Bool) : Respects (Session.named name) (do
          let merged ← Pass.edit (cse (some v))
          if merged then
            Pass.count fun s => { s with cse := s.cse + 1 }
            Pass.logChange "merged sibling operands" "cse" b v []
          return folded || merged) := by
        refine (respects_edit name (respects_cse name (some v))).bind fun merged => ?_
        dsimp only
        split
        · exact (respects_count name _).bind fun _ => (respects_logChange name _ _ b v _).bind fun _ => .pure _
        · exact .pure _
      dsimp only
      split
      · refine (respects_count name _).bind fun _ =>
          respects_program name (fun _ => by cases v <;> rfl) fun p =>
            (respects_logChange name _ _ b _ _).bind fun _ => hmerge _
      · exact hmerge _

theorem respects_walkFrom (b : BlockRef) (fuel : Nat) (cursor : Option InstrId) :
    Respects (Session.named name) (walkFrom b fuel cursor) := by
  induction fuel generalizing cursor with
  | zero =>
    cases cursor with
    | none => exact .pure false
    | some i => exact .throw _
  | succ fuel ih =>
    cases cursor with
    | none => exact .pure false
    | some i =>
      exact respects_program name (fun _ => rfl) fun p =>
        (respects_visitInstr name b i).bind fun _ => (ih _).bind fun _ => .pure _

theorem respects_walk : Respects (Session.named name) walk := by
  have hblock (b : BlockRef) : Respects (Session.named name) (walkBlock b) :=
    respects_program name (fun _ => rfl) fun p =>
      (respects_visit name _).bind fun _ => respects_walkFrom name b _ _
  have hfunc (f : FuncId) : Respects (Session.named name) (walkFunc f) :=
    respects_program name (fun _ => rfl) fun p => (respects_visit name _).bind fun _ =>
      respects_program name (fun _ => rfl) fun p => respects_anyOf name hblock _
  exact respects_program name (fun _ => rfl) fun p => respects_anyOf name hfunc _

theorem respects_sweepFrom (fuel : Nat) (queue : List InstrId) :
    Respects (Session.named name) (sweepFrom fuel queue) := by
  induction fuel generalizing queue with
  | zero =>
    cases queue with
    | nil => exact .pure 0
    | cons i queue => exact .throw _
  | succ fuel ih =>
    cases queue with
    | nil => exact .pure 0
    | cons i queue =>
      refine respects_program name (fun _ => rfl) fun p => ?_
      refine (respects_edit name (respects_dce name i)).bind fun erased => ?_
      split
      · exact .bind (.demand _) fun b => (respects_logChange name _ _ b _ _).bind fun _ =>
          (ih _).bind fun _ => .pure _
      · exact ih queue

theorem respects_sweep (f : FuncId) : Respects (Session.named name) (sweep f) :=
  respects_program name (fun _ => rfl) fun _ => (respects_sweepFrom name _ _).bind fun _ =>
    (respects_count name _).bind fun _ => .pure _

theorem respects_propagateStore (b : BlockRef) (i : InstrId) :
    Respects (Session.named name) (propagateStore b i) := by
  refine (respects_edit name (respects_pointer name i)).bind fun ptr => ?_
  refine (respects_edit name (respects_storeValue name i)).bind fun val => ?_
  split
  · next c =>
    split
    · refine (respects_count name _).bind fun _ =>
        (respects_edit name (respects_replaceAllUses name _ _)).bind fun _ => .bind (.demand ptr) fun v => ?_
      exact respects_program name (fun _ => by cases v <;> rfl) fun p => respects_logChange name _ _ b _ _
    · exact .pure _
  · exact .pure ()

theorem respects_propagateInstr {n : Nat} (b : BlockRef) (out : Flow.InstrSet n) (i : InstrId) :
    Respects (Session.named name) (propagateInstr b out i) := by
  refine respects_program name (fun _ => rfl) fun p => ?_
  dsimp only
  split
  · exact respects_propagateStore name b i
  · split
    · exact .pure ()
    · next d _ =>
      have hreplace : Respects (Session.named name) (do
          Pass.edit (replaceAllUses (some (.instr i)) (some (.instr d)))
          Pass.logChange "replaced instruction with reaching store" "constprop" b (.instr i)
            [("store", ((← Pass.program).instr d).label)]) :=
        (respects_edit name (respects_replaceAllUses name _ _)).bind fun _ =>
          respects_program name (fun _ => rfl) fun _ => respects_logChange name _ _ b _ _
      split
      · exact (respects_count name _).bind fun _ => hreplace
      · exact hreplace

theorem respects_propagateBlock {n : Nat} (b : BlockRef) (out : Flow.InstrSet n) :
    Respects (Session.named name) (propagateBlock b out) := by
  have hinstrs (l : List InstrId) : Respects (Session.named name) (propagateInstrs b out l) := by
    induction l with
    | nil => exact .pure ()
    | cons i l ih => exact (respects_propagateInstr name b out i).bind fun _ => ih
  exact respects_program name (fun _ => rfl) fun p => hinstrs _

theorem respects_logUnreachable (f : FuncId) (bs : List BlockRef) :
    Respects (Session.named name) (logUnreachable f bs) := by
  induction bs with
  | nil => exact .pure ()
  | cons b bs ih =>
    exact respects_program name (fun _ => rfl) fun p => (respects_log name _).bind fun _ => ih

theorem respects_constProp (f : FuncId) : Respects (Session.named name) (constProp f) := by
  refine .read (fun _ => rfl) fun s => respects_program name (fun p => ?_) fun p => ?_
  · have hsolve := Flow.solveReachingStores_named p name f Session.program propagateBlock
    exact congrFun (congrArg Bind.bind hsolve) _
  · refine .bind ?_ fun sol => (respects_logUnreachable name f _).bind fun _ =>
      (respects_count name _).bind fun _ => .read (fun _ => rfl) fun _ => .pure _
    exact Flow.respects_solveReachingStores p f (fun _ => ⟨name, rfl⟩) fun b out =>
      respects_propagateBlock name b out

theorem respects_runPass (description : String) {pass : FuncId → Pass Bool}
    (h : ∀ f, Respects (Session.named name) (pass f)) (f : FuncId) :
    Respects (Session.named name) (runPass description pass f) := by
  refine (h f).bind fun changed => ?_
  split
  · exact respects_program name (fun _ => rfl) fun p => respects_log name _
  · exact .pure _

/-- **The passes do not look at the name of the program.** -/
theorem respects_rewritePass (o : Options) : Respects (Session.named name) (rewritePass o) := by
  have hrounds (k : Nat) : Respects (Session.named name) (walkRounds k) := by
    induction k with
    | zero => exact .pure ()
    | succ k ih =>
      refine (respects_count name _).bind fun _ => (respects_walk name).bind fun changed => ?_
      split
      · exact ih
      · exact .pure _
  have hpasses (fs : List FuncId) : Respects (Session.named name) (runFuncPasses fs) := by
    induction fs with
    | nil => exact .pure ()
    | cons f fs ih =>
      exact (respects_runPass name _ (respects_constProp name) f).bind fun _ =>
        (respects_runPass name _ (respects_sweep name) f).bind fun _ => ih
  have hfuncs : Respects (Session.named name) (do
      if o.constProp then runFuncPasses (List.range (← Pass.program).funcs.size)) := by
    split
    · exact respects_program name (fun _ => rfl) fun _ => hpasses _
    · exact .pure ()
  unfold rewritePass
  dsimp only
  split
  · exact (hrounds _).bind fun _ => hfuncs
  · exact hfuncs

/-! ### Parsing -/

namespace Source

/-- A program under another name is resolved to the same, under that name. -/
def Ignores {α : Type} (name : String) (m : Resolver α) : Prop :=
  ∀ p, m (p.named name) = (m p).map (Prod.map id (Program.named name))

namespace Ignores

variable {name : String} {α β : Type}

theorem pure (a : α) : Ignores name (pure a : Resolver α) := fun _ => rfl

theorem reject (pos : Position) (reason : Reason) : Ignores name (reject pos reason : Resolver α) :=
  fun _ => rfl

theorem modify {g : Program → Program} (h : ∀ p, g (p.named name) = (g p).named name) :
    Ignores name (modify g : Resolver PUnit) := by
  intro p
  show Except.ok (PUnit.unit, g (p.named name)) = _
  rw [h]
  rfl

theorem modifyGet {g : Program → α × Program}
    (h : ∀ p, g (p.named name) = ((g p).1, (g p).2.named name)) :
    Ignores name (modifyGet g : Resolver α) := by
  intro p
  show Except.ok (g (p.named name)) = _
  rw [h]
  rfl

theorem bind {m : Resolver α} {k : α → Resolver β} (hm : Ignores name m)
    (hk : ∀ a, Ignores name (k a)) : Ignores name (m >>= k) := by
  intro p
  show (m (p.named name) >>= fun r => k r.1 r.2) = (m p >>= fun r => k r.1 r.2).map _
  rw [hm p]
  cases m p with
  | error e => rfl
  | ok r => exact hk r.1 r.2

theorem discard {m : Resolver α} (hm : Ignores name m) : Ignores name (discard m) :=
  hm.bind fun _ => .pure PUnit.unit

theorem read {k : Program → Resolver β} (hread : ∀ p, k (p.named name) = k p)
    (hk : ∀ p, Ignores name (k p)) : Ignores name (get >>= k) := by
  intro p
  show k (p.named name) (p.named name) = _
  rw [hread, hk p p]
  rfl

/-- A check that may stop the resolver. -/
theorem check {c : Prop} [Decidable c] (pos : Position) (reason : Reason) {k : PUnit → Resolver β}
    (hk : ∀ u, Ignores name (k u)) :
    Ignores name (if c then Source.reject pos reason >>= k else k PUnit.unit) := by
  split
  · exact .bind (.reject pos reason) hk
  · exact hk _

end Ignores

theorem named_assignOperands (p : Program) (i : InstrId) (vs : List (Option Value)) :
    (p.named name).assignOperands i vs = (p.assignOperands i vs).named name := by
  have hregister (k : Nat) (q : Program) :
      (q.named name).registerFrom i k vs = (q.registerFrom i k vs).named name := by
    induction vs generalizing q k with
    | nil => rfl
    | cons v vs ih =>
      cases v with
      | none => exact ih (k + 1) q
      | some v => exact ih (k + 1) (q.addUse v ⟨i, k⟩)
  exact hregister 0 (p.modifyInstr i fun x => { x with operands := vs })

theorem ignores_resolveParams (f : FuncId) (names : Names) (params : List ParamSyntax) :
    Ignores name (resolveParams f names params) := by
  induction params generalizing names with
  | nil => exact .pure names
  | cons a params ih =>
    unfold resolveParams
    exact .check _ _ fun _ => .bind (.modifyGet fun _ => rfl) fun _ => ih _

theorem ignores_resolveBlocks (f : FuncId) (blocks : List BlockSyntax) :
    Ignores name (resolveBlocks f blocks) := by
  induction blocks with
  | nil => exact .pure ()
  | cons b blocks ih =>
    exact .read (fun _ => rfl) fun p => .check _ _ fun _ =>
      .bind (.discard (.modifyGet fun _ => rfl)) fun _ => ih

theorem named_appendTo (p : Program) (b : BlockRef) (i : InstrId) :
    (p.named name).appendTo b i = (p.appendTo b i).named name := by
  rw [Program.appendTo, Program.appendTo, Program.linkLast, Program.linkLast]
  have htail : (((p.named name).attach b i (· ++ [i])).block b).tail =
      ((p.attach b i (· ++ [i])).block b).tail := rfl
  rw [htail]
  cases ((p.attach b i (· ++ [i])).block b).tail <;> rfl

theorem ignores_resolveInstrs (b : BlockRef) (names : Names) (is : List InstrSyntax) :
    Ignores name (resolveInstrs b names is) := by
  induction is generalizing names with
  | nil => exact .pure _
  | cons i is ih =>
    exact .read (fun _ => rfl) fun p => .check _ _ fun _ => .check _ _ fun _ =>
      .bind (.modifyGet fun _ => rfl) fun id => .bind (.modify fun p => named_appendTo name p b id)
        fun _ => .bind (ih _) fun _ => .pure _

theorem ignores_resolveBodies (f : FuncId) (k : Nat) (names : Names) (blocks : List BlockSyntax) :
    Ignores name (resolveBodies f k names blocks) := by
  induction blocks generalizing k names with
  | nil => exact .pure _
  | cons b blocks ih =>
    exact .bind (ignores_resolveInstrs name _ names b.instrs) fun r => .bind (ih _ _) fun _ => .pure _

theorem ignores_resolveOperand (names : Names) (i : InstrSyntax) (k : Nat) (a : Operand) :
    Ignores name (resolveOperand names i k a) := by
  unfold resolveOperand
  split
  · split
    · exact .pure _
    · exact .reject _ _
  · refine .read (fun _ => rfl) fun p => ?_
    split
    · exact .pure _
    · exact .reject _ _
  · exact .bind (.modifyGet fun _ => rfl) fun _ => .pure _

theorem ignores_resolveOperands (names : Names) (id : InstrId) (i : InstrSyntax) (k : Nat)
    (args : List Operand) : Ignores name (resolveOperands names id i k args) := by
  induction args generalizing k with
  | nil => exact .pure []
  | cons a args ih =>
    refine .bind (ignores_resolveOperand name names i k a) fun v => .read (fun _ => ?_) fun p => ?_
    · cases v <;> rfl
    · have hrest : Ignores name (do return v :: (← resolveOperands names id i (k + 1) args)) :=
        .bind (ih _) fun _ => .pure _
      split
      · exact .check _ _ fun _ => hrest
      · exact hrest

theorem ignores_resolveTargets (f : FuncId) (targets : List Target) :
    Ignores name (resolveTargets f targets) := by
  induction targets with
  | nil => exact .pure []
  | cons t targets ih =>
    refine .read (fun _ => rfl) fun p => ?_
    split
    · exact .bind ih fun _ => .pure _
    · exact .reject _ _

theorem ignores_resolveUses (f : FuncId) (names : Names) (made : List (InstrId × InstrSyntax)) :
    Ignores name (resolveUses f names made) := by
  induction made with
  | nil => exact .pure ()
  | cons x made ih =>
    refine .bind (ignores_resolveOperands name names x.1 x.2 0 _) fun operands =>
      .bind (ignores_resolveTargets name f _) fun targets => .bind (.modify fun p => ?_) fun _ => ih
    exact named_assignOperands name (p.modifyInstr x.1 fun i => { i with targets := targets }) _ _

theorem ignores_resolveFuncs (fns : List FuncSyntax) : Ignores name (resolveFuncs fns) := by
  have hfunc (fn : FuncSyntax) : Ignores name (resolveFunc fn) :=
    .read (fun _ => rfl) fun _ => .check _ _ fun _ => .bind (.modifyGet fun _ => rfl) fun f =>
      .bind (ignores_resolveParams name f _ _) fun names =>
        .bind (ignores_resolveBlocks name f _) fun _ =>
          .bind (ignores_resolveBodies name f 0 names _) fun r => ignores_resolveUses name f r.1 r.2
  induction fns with
  | nil => exact .pure ()
  | cons fn fns ih => exact .bind (hfunc fn) fun _ => ih

theorem declareGlobals_named (first : String) (globals : List GlobalSyntax) :
    declareGlobals name globals = (declareGlobals first globals).named name := by
  have hfold (p : Program) : globals.foldl (fun p g => (p.addGlobal g.name g.elem).2) (p.named name) =
      (globals.foldl (fun p g => (p.addGlobal g.name g.elem).2) p).named name := by
    induction globals generalizing p with
    | nil => rfl
    | cons g globals ih => exact ih (p.addGlobal g.name g.elem).2
  exact hfold (Program.empty first)

theorem resolve_named (first : String) (s : ProgramSyntax) :
    s.resolve name = (s.resolve first).map (Program.named name) := by
  have hrun := ignores_resolveFuncs name s.funcs (declareGlobals first s.globals)
  rw [← declareGlobals_named] at hrun
  show (resolveFuncs s.funcs (declareGlobals name s.globals) >>= fun r => Pure.pure r.2) =
    (resolveFuncs s.funcs (declareGlobals first s.globals) >>= fun r => Pure.pure r.2).map _
  rw [hrun]
  cases resolveFuncs s.funcs (declareGlobals first s.globals) <;> rfl

end Source

/-- **A text is the same program under every name.** -/
theorem parse_named {first : String} {source : ByteArray} {p : Program}
    (h : Program.parse first source = .ok p) : Program.parse name source = .ok (p.named name) := by
  rw [Program.parse] at h ⊢
  cases hparsed : Source.ProgramSyntax.parse (Text.Symbol.ofBytes source) with
  | error e => simp [hparsed, bind, Except.bind] at h
  | ok s =>
    simp only [hparsed, bind, Except.bind, Source.resolve_named name first] at h ⊢
    cases hresolve : s.resolve first with
    | error e => simp [hresolve] at h
    | ok q =>
      simp only [hresolve] at h
      rw [Except.ok.inj h]
      rfl

end Midend
