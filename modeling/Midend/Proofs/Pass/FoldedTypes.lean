import Midend.Proofs.Pass.Meaning
import Midend.Proofs.Pass.WalkConvergence

/-!
# The types of folded constants

Folding computes at the type of the first operand, and nobody compares that with the type of the
instruction.  An integer in a text has the type of its instruction, but a constant that came from an
earlier fold, or through a merge, has whatever type it got there.  So the steps of the walk are recorded,
each with the program it finds.  In a program where arithmetic has the type of its first operand every
fold keeps the type, and only one kind of step can put an end to that: a merge of operands that are no
arithmetic, such as comparisons, whose operands have another type than they have themselves.

## Main definitions

* `WalkStep`, `WalkPath`: the steps of the walk, and sequences of them.
* `WalkStep.KeepsType`: the value of a merge has the type of the instruction it takes the place of.
* `Session.Takes`: the steps between two states of a session, counted.

## Main results

* `WalkStep.typed`, `WalkPath.typed`: which steps keep a program typed.
* `Session.exists_walkRounds_takes`: the rounds of the walk consist of steps.
* `walkRounds_folds`: the type and the value of every constant that the rounds fold to.
-/

namespace Midend

/-! ### Typed programs -/

namespace Program

variable {p q : Program} {i b : InstrId} {old new : Value}

/-- Typing survives if the first operand of arithmetic keeps its type. -/
theorem Typed.of_trims (h : p.Typed) (htrims : p.Trims q)
    (hhead : ∀ i, q.Listed i → (q.instr i).op.isArith = true →
      (q.operandTypes i).head? = (p.operandTypes i).head?)
    (hknown : ∀ i, q.Listed i → ∀ v, some v ∈ (q.instr i).operands → q.Knows v) : q.Typed where
  arith i hi hop := by
    obtain ⟨c, hc⟩ := hi
    obtain ⟨ops, heq, hlength⟩ := htrims.instr c i hc
    have hop' := hop
    rw [heq] at hop'
    obtain ⟨htwo, hfirst⟩ := h.arith i ⟨c, (htrims.sublist c).subset hc⟩ hop'
    rw [operandTypes, List.length_map] at htwo
    refine ⟨?_, ?_⟩
    · rw [operandTypes, List.length_map, heq]
      exact hlength.trans htwo
    · rw [hhead i ⟨c, hc⟩ hop, hfirst, heq]
  known i hi v hv := by
    obtain ⟨w, hw, rfl⟩ := List.mem_filterMap.mp hv
    exact hknown i hi v hw

/-- A new constant keeps a program typed. -/
theorem Typed.push (h : p.Typed) (c : Const) : Typed { p with consts := p.consts.push c } := by
  have htrims : p.Trims { p with consts := p.consts.push c } :=
    .of_operands ⟨_, _, _, rfl⟩ fun _ => ⟨_, rfl, rfl⟩
  refine h.of_trims htrims (fun i hi _ => ?_) fun i hi v hv => ?_
  · have htypes : operandTypes { p with consts := p.consts.push c } i = p.operandTypes i :=
      h.map_operands hi fun _ hv => typeOf_congr (hv.get_push c) rfl fun _ => rfl
    rw [htypes]
  · refine (h.knows hi hv).mono ?_
    show p.consts.size ≤ (p.consts.push c).size
    rw [Table.size_push]
    exact Nat.le_succ _

/-- A value of the same type does not change the types of operands. -/
theorem UsesExact.operandTypes_redirect (h : p.UsesExact) (hty : p.typeOf new = p.typeOf old)
    (i : InstrId) : (p.redirect old new).operandTypes i = p.operandTypes i := by
  rw [operandTypes, typeOf_redirect, h.instr_redirect, Instr.substitute, operandTypes, List.map_map]
  refine List.map_congr_left fun v _ => ?_
  show (substituteIn old new v).map p.typeOf = v.map p.typeOf
  unfold substituteIn
  split
  · next heq =>
    rw [heq]
    exact congrArg some hty
  · rfl

/-- A value of the same type takes the place of another. -/
theorem Typed.redirect (h : p.Typed) (hexact : p.UsesExact) (hnew : p.Knows new)
    (hty : p.typeOf new = p.typeOf old) : (p.redirect old new).Typed := by
  have hlisted : ∀ {i}, (p.redirect old new).Listed i ↔ p.Listed i :=
    (sameButOperands_redirect p old new).listed
  refine h.of_trims (trims_redirect p old new) (fun i _ _ => ?_) fun i hi v hv => ?_
  · rw [hexact.operandTypes_redirect hty]
  · refine Knows.congr (consts_redirect p old new) ?_
    rcases hexact.mem_operands_redirect hv with hv | ⟨hv, -⟩
    · exact h.knows (hlisted.mp hi) hv
    · rw [Option.some.inj hv]
      exact hnew

/-- The first operand of an instruction is exchanged.  If that is arithmetic, the value must have its
type. -/
theorem Typed.replaceHead (h : p.Typed) {v : Value} (hv : p.Knows v)
    (hty : (p.instr b).op.isArith = true → p.typeOf v = (p.instr b).ty) :
    (p.replaceOperand ⟨b, 0⟩ v).Typed := by
  obtain ⟨is, us, hframe⟩ := p.exists_replaceOperand ⟨b, 0⟩ v
  have hconsts : (p.replaceOperand ⟨b, 0⟩ v).consts = p.consts := by rw [hframe]
  have hparams : (p.replaceOperand ⟨b, 0⟩ v).params = p.params := by rw [hframe]
  have hsame := sameButOperands_replaceOperand p ⟨b, 0⟩ v
  refine h.of_trims (trims_replaceOperand p ⟨b, 0⟩ v) (fun i hi hop => ?_) fun i hi w hw => ?_
  · rw [hsame.op] at hop
    obtain ⟨htwo, hfirst⟩ := h.arith i (hsame.listed.mp hi) hop
    rw [hfirst, operandTypes, hsame.typeOf hconsts hparams, instr_replaceOperand]
    split
    · next hb =>
      obtain rfl : b = i := hb
      rw [operandTypes, List.length_map] at htwo
      have hpos : 0 < (p.instr b).operands.length := by
        rw [htwo]
        exact Nat.two_pos
      obtain ⟨w, rest, hops⟩ := List.exists_cons_of_length_pos hpos
      rw [hops]
      exact congrArg (fun t => some (some t)) (hty hop)
    · exact hfirst
  · refine Knows.congr hconsts ?_
    rw [instr_replaceOperand] at hw
    split at hw
    · rcases List.mem_or_eq_of_mem_set hw with hw | hw
      · exact h.knows (hsame.listed.mp hi) hw
      · rw [Option.some.inj hw]
        exact hv
    · exact h.knows (hsame.listed.mp hi) hw

theorem Typed.detach (h : p.Typed) (hp : p.Intact) (i : InstrId) : (p.detach i).Typed := by
  refine h.of_trims (hp.trims_detach i) (fun j hj _ => ?_) fun j hj v hv => ?_
  · obtain ⟨-, -, heq⟩ := hp.of_listed_detach hj
    rw [operandTypes, typeOf_detach, heq]
    rfl
  · obtain ⟨hold, -, heq⟩ := hp.of_listed_detach hj
    rw [heq] at hv
    exact (h.knows hold hv).congr (consts_detach p i)

theorem Coherent.listed_of_operands (h : p.Coherent) (hi : (p.instr i).operands ≠ []) : p.Listed i := by
  obtain ⟨b, hb⟩ := h.exists_block hi
  exact ⟨b, (h.listed b i).mpr hb⟩

/-- **What is folded, and to what:** the value is cut down to the type of the first operand. -/
theorem exists_of_foldedConst {c : Const} (hc : foldedConst? p i = some c) :
    ∃ x y f, (p.instr i).operands = [some (.const x), some (.const y)] ∧
      (p.instr i).op.arith? = some f ∧
      c = .ofValue (p.consts.get x).ty (f (p.consts.get x).value (p.consts.get y).value) := by
  obtain ⟨-, -, x, y, hops, hfold⟩ := foldedConst?_eq_some_iff.mp hc
  rw [foldConst_eq] at hfold
  obtain ⟨f, hf, rfl⟩ := Option.map_eq_some_iff.mp hfold
  exact ⟨x, y, f, hops, hf, rfl⟩

/-- In a typed program the constant has the type of the instruction. -/
theorem Typed.ty_of_foldedConst (h : p.Typed) (hp : p.Coherent) {c : Const}
    (hc : foldedConst? p i = some c) : c.ty = (p.instr i).ty := by
  obtain ⟨x, y, f, hops, hf, rfl⟩ := exists_of_foldedConst hc
  have hi : p.Listed i := hp.listed_of_operands (by rw [hops]; simp)
  exact h.typeOf_head (v := .const x) hi (Opcode.isArith_of_arith? hf) (by rw [hops]; rfl)

theorem Typed.fold (h : p.Typed) (hp : p.WellFormed) {c : Const} (hc : foldedConst? p i = some c) :
    (p.fold i c).Typed := by
  have hget : (p.consts.push c).get p.consts.size = c := by rw [Table.get_push, if_pos rfl]
  have hpushed := hp.withConsts (p.consts.push c)
  refine Typed.detach ?_ (hpushed.redirect_const _ _).intact i
  refine (h.push c).redirect hpushed.exact ?_ ?_
  · show p.consts.size < (p.consts.push c).size
    simp
  · show ((p.consts.push c).get p.consts.size).ty = (p.instr i).ty
    rw [hget]
    exact h.ty_of_foldedConst hp.toCoherent hc

/-- The users of a folded instruction have the new constant for it. -/
theorem WellFormed.instr_fold (h : p.WellFormed) (c : Const) {j : InstrId} (hj : j ≠ i) :
    (p.fold i c).instr j = (p.instr j).substitute (.instr i) (.const p.consts.size) := by
  rw [Program.fold, instr_detach, if_neg (Ne.symm hj)]
  exact (h.withConsts _).exact.instr_redirect _ _ j

theorem get_fold (p : Program) (i : InstrId) (c : Const) :
    (p.fold i c).consts.get p.consts.size = c := by
  rw [Program.fold, consts_detach, consts_redirect]
  show (p.consts.push c).get p.consts.size = c
  rw [Table.get_push, if_pos rfl]

end Program

/-! ### Steps of the walk -/

/-- A step of the walk, with the program it finds. -/
inductive WalkStep where
  /-- A dead instruction is erased. -/
  | erase (before : Program) (i : InstrId)
  /-- An instruction is folded to a constant. -/
  | fold (before : Program) (i : InstrId) (c : Const)
  /-- Operands are merged. -/
  | merge (m : SiblingMerge)

namespace WalkStep

/-- The program before the step. -/
def before : WalkStep → Program
  | erase p _ => p
  | fold p _ _ => p
  | merge m => m.before

/-- The program after the step. -/
def after : WalkStep → Program
  | erase p i => p.detach i
  | fold p i c => p.fold i c
  | merge m => m.outcome

/-- The step can be taken. -/
def Allowed : WalkStep → Prop
  | erase p i => p.IsDead i
  | fold p i c => foldedConst? p i = some c
  | merge m => m.Fits

/-- Is it a fold? -/
def isFold : WalkStep → Bool
  | fold _ _ _ => true
  | _ => false

/-- Is it a merge? -/
def isMerge : WalkStep → Bool
  | merge _ => true
  | _ => false

/-- If operands are merged that are no arithmetic, the value has the type of the instruction it takes
the place of. -/
def KeepsType : WalkStep → Prop
  | merge m => (m.before.instr m.second).op.isArith = false →
      m.before.typeOf m.value = (m.before.instr m.second).ty
  | _ => True

variable {e : WalkStep}

theorem rewrites (h : e.Allowed) : ∃ ms, Rewrites ms e.before e.after := by
  cases e with
  | erase p i => exact ⟨_, Program.IsDead.rewrites h⟩
  | fold p i c => exact ⟨_, p.rewrites_fold i c⟩
  | merge m => exact ⟨_, SiblingMerge.Fits.rewrites h⟩

theorem wellFormed (h : e.Allowed) (hp : e.before.WellFormed) : e.after.WellFormed := by
  obtain ⟨ms, hms⟩ := rewrites h
  exact hms.wellFormed hp

end WalkStep

/-- A merge keeps a program typed if its value has the type of the instruction it takes the place of.
Between arithmetic that is so anyway. -/
theorem SiblingMerge.Fits.typed {m : SiblingMerge} (h : m.Fits) (hp : m.before.WellFormed)
    (htyped : m.before.Typed) (hkeeps : (WalkStep.merge m).KeepsType) : m.outcome.Typed := by
  obtain ⟨-, -, hne, -⟩ := siblings?_eq_some h.siblings
  obtain ⟨hop, hty⟩ := alike_of_siblings h.siblings
  have hfirst : m.before.Listed m.first := hp.toCoherent.listed_of_operands hne
  have hvalue : m.before.typeOf m.value = (m.before.instr m.second).ty := by
    cases harith : (m.before.instr m.second).op.isArith with
    | false => exact hkeeps harith
    | true => rw [htyped.typeOf_head hfirst (by rw [hop, harith]) h.head, hty]
  have hknows : m.before.Knows m.value := htyped.knows hfirst (List.mem_of_head? h.head)
  have hsame := Program.sameButOperands_redirect m.before (.instr m.second) m.value
  have hmoved : (m.before.redirect (.instr m.second) m.value).Typed :=
    htyped.redirect hp.exact hknows hvalue
  have hafter : m.after.Typed := by
    refine hmoved.replaceHead ?_ fun _ => ?_
    · exact hknows.congr (Program.consts_redirect _ _ _)
    · rw [Program.typeOf_redirect, hsame.ty, hvalue]
  unfold SiblingMerge.outcome
  split
  · exact hafter.detach (Merge.wellFormed h.valid hp).intact m.first
  · exact hafter

/-- **One step keeps a program typed,** unless it is a merge that does not keep the type. -/
theorem WalkStep.typed {e : WalkStep} (h : e.Allowed) (hp : e.before.WellFormed)
    (htyped : e.before.Typed) (hkeeps : e.KeepsType) : e.after.Typed := by
  cases e with
  | erase p i => exact Program.Typed.detach htyped hp.intact i
  | fold p i c => exact Program.Typed.fold htyped hp h
  | merge m => exact SiblingMerge.Fits.typed h hp htyped hkeeps

/-- Without merges every type is kept. -/
theorem WalkStep.keepsType_of_countP {es : List WalkStep} (h : es.countP (·.isMerge) = 0) :
    ∀ e ∈ es, e.KeepsType := by
  intro e he
  have hno := List.countP_eq_zero.mp h e he
  cases e with
  | erase p i => trivial
  | fold p i c => trivial
  | merge m => exact absurd rfl hno

/-- A sequence of steps of the walk. -/
inductive WalkPath : List WalkStep → Program → Program → Prop where
  /-- No step at all. -/
  | nil (p : Program) : WalkPath [] p p
  /-- A step, and others after it. -/
  | cons {e : WalkStep} {es : List WalkStep} {q : Program} : e.Allowed → WalkPath es e.after q →
      WalkPath (e :: es) e.before q

namespace WalkPath

variable {es es' : List WalkStep} {p q r : Program}

theorem append (h : WalkPath es p q) (h' : WalkPath es' q r) : WalkPath (es ++ es') p r := by
  induction h with
  | nil p => exact h'
  | cons he _ ih => exact .cons he (ih h')

theorem wellFormed (h : WalkPath es p q) (hp : p.WellFormed) : q.WellFormed := by
  induction h with
  | nil p => exact hp
  | cons he _ ih => exact ih (WalkStep.wellFormed he hp)

/-- **A program stays typed** as long as merges keep types. -/
theorem typed (h : WalkPath es p q) (hp : p.WellFormed) (htyped : p.Typed)
    (hkeeps : ∀ e ∈ es, e.KeepsType) : q.Typed := by
  induction h with
  | nil p => exact htyped
  | cons he _ ih =>
    rw [List.forall_mem_cons] at hkeeps
    exact ih (WalkStep.wellFormed he hp) (WalkStep.typed he hp htyped hkeeps.1) hkeeps.2

/-- The steps before one of them lead to the program it finds. -/
theorem of_append {e : WalkStep} (h : WalkPath (es ++ e :: es') p q) :
    WalkPath es p e.before ∧ e.Allowed := by
  induction es generalizing p with
  | nil =>
    cases h with
    | cons he _ => exact ⟨.nil _, he⟩
  | cons d es ih =>
    cases h with
    | cons hd hrest =>
      obtain ⟨hpath, he⟩ := ih hrest
      exact ⟨.cons hd hpath, he⟩

end WalkPath

/-! ### Walks -/

namespace Session

variable {s t u : Session} {es es' : List WalkStep}

/-- From one state to another by steps of the walk, with all folds and merges counted. -/
structure Takes (es : List WalkStep) (s t : Session) : Prop where
  /-- The steps. -/
  path : WalkPath es s.program t.program
  /-- The folds are counted. -/
  folded : t.stats.folded = s.stats.folded + es.countP (·.isFold)
  /-- The merges are counted. -/
  cse : t.stats.cse = s.stats.cse + es.countP (·.isMerge)

theorem Takes.quiet (hprogram : t.program = s.program) (hstats : t.stats = s.stats) :
    Takes [] s t := by
  refine ⟨?_, ?_, ?_⟩
  · rw [hprogram]
    exact .nil _
  · rw [hstats]
    rfl
  · rw [hstats]
    rfl

theorem Takes.trans (h : Takes es s t) (h' : Takes es' t u) : Takes (es ++ es') s u := by
  refine ⟨h.path.append h'.path, ?_, ?_⟩
  · rw [h'.folded, h.folded, List.countP_append, Nat.add_assoc]
  · rw [h'.cse, h.cse, List.countP_append, Nat.add_assoc]

theorem stepRelation_takes : StepRelation fun _ s t => ∃ es, Takes es s t where
  quiet hprogram hstats := ⟨[], .quiet hprogram hstats⟩
  trans := by
    rintro _ _ s t u ⟨es, hes⟩ ⟨es', hes'⟩
    exact ⟨es ++ es', hes.trans hes'⟩
  erase {s t i} _ _ hdead hprogram hstats := by
    refine ⟨[.erase s.program i], ?_, by rw [hstats]; rfl, by rw [hstats]; rfl⟩
    rw [hprogram]
    exact .cons (e := .erase s.program i) hdead (.nil _)
  fold {s t i c} _ _ hc hprogram hstats := by
    refine ⟨[.fold s.program i c], ?_, by rw [hstats]; rfl, by rw [hstats]; rfl⟩
    rw [hprogram]
    exact .cons (e := .fold s.program i c) hc (.nil _)
  merge {s t m} _ hbefore hfits hprogram hstats := by
    rcases hprogram with hprogram | ⟨d, hdead, hprogram⟩
    · refine ⟨[.merge m], ?_, by rw [hstats]; rfl, by rw [hstats]; rfl⟩
      rw [hprogram, ← hbefore]
      exact .cons (e := .merge m) hfits (.nil _)
    · refine ⟨[.merge m, .erase m.outcome d], ?_, by rw [hstats]; rfl, by rw [hstats]; rfl⟩
      rw [hprogram, ← hbefore]
      exact .cons (e := .merge m) hfits (.cons (e := .erase m.outcome d) hdead (.nil _))

/-- **The rounds of the walk consist of steps.** -/
theorem exists_walkRounds_takes (n : Nat) (hs : s.program.WellFormed) :
    ∃ t es, walkRounds n s = (.ok (), t) ∧ Takes es s t := by
  induction n generalizing s with
  | zero => exact ⟨s, [], rfl, .quiet rfl rfl⟩
  | succ n ih =>
    obtain ⟨changed, t, hwalk, hleads, es, hes⟩ :=
      (stepRelation_takes.walkRelation.walks_walk s.nextRound hs).exists_eq
    -- The number of the round makes no difference.
    have hround : Takes es s t := ⟨hes.path, hes.folded, hes.cse⟩
    rw [walkRounds_succ hwalk]
    cases changed with
    | false => exact ⟨t, es, rfl, hround⟩
    | true =>
      obtain ⟨u, es', hrun, hes'⟩ := ih (hleads.wellFormed hs)
      exact ⟨u, es ++ es', hrun, hround.trans hes'⟩

end Session

/-! ### Programs of accepted texts -/

/-- **A folded constant has the type of the first operand.**  Any number of rounds of the walk over the
program of an accepted text is a sequence of steps, in which every fold and every merge is counted.  Each
fold finds an instruction whose operands are two constants.  Its operation is carried out on their
numbers, what comes out is cut down to the type of the first of them, and the constant takes the place of
the instruction for all its users.  So it is what the instruction computes at its own type just if that is
the type of the first operand.  It is, if arithmetic has the type of its first operand in the text and no
merge of other operands has changed a type before. -/
theorem walkRounds_folds {name : String} {src : ByteArray} {p : Program}
    (h : Program.parse name src = .ok p) (n : Nat) :
    ∃ t es, walkRounds n { program := p } = (.ok (), t) ∧ WalkPath es p t.program ∧
      t.stats.folded = es.countP (·.isFold) ∧ t.stats.cse = es.countP (·.isMerge) ∧
      ∀ es₁ q i c es₂, es = es₁ ++ .fold q i c :: es₂ →
        constFold i q = (.ok (.const q.consts.size), q.fold i c) ∧
        (q.fold i c).consts.get q.consts.size = c ∧
        (∀ j ≠ i, (q.fold i c).instr j =
          (q.instr j).substitute (.instr i) (.const q.consts.size)) ∧
        ∃ x y f, (q.instr i).operands = [some (.const x), some (.const y)] ∧
          (q.instr i).op.arith? = some f ∧
          c = .ofValue (q.consts.get x).ty (f (q.consts.get x).value (q.consts.get y).value) ∧
          (c = .ofValue (q.instr i).ty (f (q.consts.get x).value (q.consts.get y).value) ↔
            (q.consts.get x).ty = (q.instr i).ty) ∧
          (p.Typed → (∀ e ∈ es₁, e.KeepsType) → (q.consts.get x).ty = (q.instr i).ty) := by
  have hp := (Program.wellFormed_of_parse h).1
  obtain ⟨t, es, hrun, htakes⟩ := Session.exists_walkRounds_takes (s := { program := p }) n hp
  refine ⟨t, es, hrun, htakes.path, htakes.folded.trans (Nat.zero_add _),
    htakes.cse.trans (Nat.zero_add _), ?_⟩
  rintro es₁ q i c es₂ rfl
  obtain ⟨hpath, hc⟩ := htakes.path.of_append
  replace hc : foldedConst? q i = some c := hc
  have hq : q.WellFormed := hpath.wellFormed hp
  obtain ⟨x, y, f, hops, hf, rfl⟩ := Program.exists_of_foldedConst hc
  refine ⟨Program.constFold_run hc, q.get_fold i _, fun j hj => hq.instr_fold _ hj, x, y, f, hops, hf,
    rfl, ⟨fun heq => congrArg Const.ty heq, fun hty => by rw [hty]⟩, fun htyped hkeeps => ?_⟩
  have hown : (Const.ofValue (q.consts.get x).ty _).ty = (q.instr i).ty :=
    (hpath.typed hp htyped hkeeps).ty_of_foldedConst hq.toCoherent hc
  exact hown

/-- A sum of one type that is the first operand of a sum of another type. -/
def mixedWidths : ByteArray :=
  ("func @f() : i32 \x7b\nentry:\n    %a = add i8 100, 100\n    %b = add i32 %a, 1000\n" ++
    "    ret i32 %b\n\x7d\n").toUTF8

/-- Two comparisons that are merged.  So a number that was compared becomes an operand of `%u`. -/
def mergedComparisons : ByteArray :=
  ("func @f(%a: i32, %b: i32) \x7b\nentry:\n    %c = cmp i32 5, %a\n    %d = cmp i32 %b, 2\n" ++
    "    %u = add i1 %d, 1\n    %e = add i1 %c, %d\n    call void @use(%u, %e)\n    ret void\n" ++
    "\x7d\n").toUTF8

/-- A sum that is the first operand of a sum of the same type. -/
def oneWidth : ByteArray :=
  ("func @f() : i8 \x7b\nentry:\n    %a = add i8 100, 100\n    %b = add i8 %a, 100\n" ++
    "    ret i8 %b\n\x7d\n").toUTF8

/-- With mixed types the second sum comes out as -80, where 944 is the sum at its own type.  The same can
happen in a typed program: after the comparisons are merged, a sum of one bit comes out as 6.  With one
type and without merges all is as it should be. -/
theorem walkRounds_folds_widths :
    (∃ p, Program.parse "m" mixedWidths = .ok p ∧ (p.instr 1).ty = .int 32 ∧
      ∃ t es, walkRounds 2 { program := p } = (.ok (), t) ∧ WalkPath es p t.program ∧
        es.countP (·.isFold) = 2 ∧ (t.program.instr 2).operands = [some (.const 4)] ∧
        t.program.consts.get 4 = ⟨.int 8, -80⟩) ∧
    (∃ p, Program.parse "m" mergedComparisons = .ok p ∧ p.Typed ∧ (p.instr 2).ty = .i1 ∧
      ∃ t es, walkRounds 3 { program := p } = (.ok (), t) ∧ WalkPath es p t.program ∧
        es.countP (·.isFold) = 1 ∧ es.countP (·.isMerge) = 2 ∧
        (t.program.instr 4).operands = [some (.const 3), some (.const 0)] ∧
        t.program.consts.get 3 = ⟨.int 32, 6⟩) ∧
    ∃ p, Program.parse "m" oneWidth = .ok p ∧ p.Typed ∧
      ∃ t es, walkRounds 2 { program := p } = (.ok (), t) ∧ WalkPath es p t.program ∧
        es.countP (·.isFold) = 2 ∧
        (∀ es₁ q i c es₂, es = es₁ ++ .fold q i c :: es₂ → c.ty = (q.instr i).ty) ∧
        t.program.consts.get 4 = ⟨.int 8, 44⟩ := by
  refine ⟨?_, ?_, ?_⟩
  · obtain ⟨p, hp, hfound⟩ : ∃ p, Program.parse "m" mixedWidths = .ok p ∧
        ((p.instr 1).ty == .int 32 && (walkRounds 2 { program := p }).2.stats.folded == 2 &&
          ((walkRounds 2 { program := p }).2.program.instr 2).operands == [some (.const 4)] &&
          (walkRounds 2 { program := p }).2.program.consts.get 4 == ⟨.int 8, -80⟩) = true :=
      Program.exists_of_parse (by decide +kernel)
    simp only [Bool.and_eq_true, beq_iff_eq] at hfound
    obtain ⟨⟨⟨hty, hfolded⟩, hops⟩, hconst⟩ := hfound
    obtain ⟨t, es, hrun, hpath, hcount, -⟩ := walkRounds_folds hp 2
    rw [hrun] at hfolded hops hconst
    exact ⟨p, hp, hty, t, es, hrun, hpath, hcount.symm.trans hfolded, hops, hconst⟩
  · obtain ⟨p, hp, hfound⟩ : ∃ p, Program.parse "m" mergedComparisons = .ok p ∧
        (decide p.Typed && (p.instr 2).ty == .i1 &&
          (walkRounds 3 { program := p }).2.stats.folded == 1 &&
          (walkRounds 3 { program := p }).2.stats.cse == 2 &&
          ((walkRounds 3 { program := p }).2.program.instr 4).operands ==
            [some (.const 3), some (.const 0)] &&
          (walkRounds 3 { program := p }).2.program.consts.get 3 == ⟨.int 32, 6⟩) = true :=
      Program.exists_of_parse (by decide +kernel)
    simp only [Bool.and_eq_true, beq_iff_eq, decide_eq_true_eq] at hfound
    obtain ⟨⟨⟨⟨⟨htyped, hty⟩, hfolded⟩, hcse⟩, hops⟩, hconst⟩ := hfound
    obtain ⟨t, es, hrun, hpath, hcount, hmerges, -⟩ := walkRounds_folds hp 3
    rw [hrun] at hfolded hcse hops hconst
    exact ⟨p, hp, htyped, hty, t, es, hrun, hpath, hcount.symm.trans hfolded,
      hmerges.symm.trans hcse, hops, hconst⟩
  · obtain ⟨p, hp, hfound⟩ : ∃ p, Program.parse "m" oneWidth = .ok p ∧
        (decide p.Typed && (walkRounds 2 { program := p }).2.stats.folded == 2 &&
          (walkRounds 2 { program := p }).2.stats.cse == 0 &&
          (walkRounds 2 { program := p }).2.program.consts.get 4 == ⟨.int 8, 44⟩) = true :=
      Program.exists_of_parse (by decide +kernel)
    simp only [Bool.and_eq_true, beq_iff_eq, decide_eq_true_eq] at hfound
    obtain ⟨⟨⟨htyped, hfolded⟩, hcse⟩, hconst⟩ := hfound
    obtain ⟨t, es, hrun, hpath, hcount, hmerges, hfolds⟩ := walkRounds_folds hp 2
    rw [hrun] at hfolded hcse hconst
    have hkeeps := WalkStep.keepsType_of_countP (hmerges.symm.trans hcse)
    refine ⟨p, hp, htyped, t, es, hrun, hpath, hcount.symm.trans hfolded, ?_, hconst⟩
    rintro es₁ q i c es₂ rfl
    obtain ⟨-, -, -, x, y, f, -, -, rfl, -, hown⟩ := hfolds es₁ q i c es₂ rfl
    exact hown htyped fun e he => hkeeps e (List.mem_append_left _ he)

end Midend
