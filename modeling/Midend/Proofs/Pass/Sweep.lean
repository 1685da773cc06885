import Mathlib.Data.Finset.Card
import Mathlib.Order.Bounds.Basic
import Midend.Proofs.Pass.PeepholeWalk
import Midend.Proofs.Program.Obtainable

/-!
# What a sweep erases

A sweep erases just what is dead in the end: the least set of instructions of the function to which every
pure instruction belongs whose users all belong to it.  A chain of instructions that leads to nothing goes,
and instructions that use each other in a circle stay.

The queue may hold instructions twice, and some that were erased while they waited.  What carries the proof
is that every dead instruction waits in it: an instruction becomes dead when its last user goes, and then it
lines up as an operand of that user.  So nothing is dead once the queue is empty, and the order in which the
instructions wait makes no difference.

## Main definitions

* `Program.Absorbs`: pure instructions whose users all belong to a set belong to it.
* `Program.Swept`: what is left of a program when a set of instructions is erased.
* `Program.SweptSoFar`: what holds while a sweep is at work.

## Main results

* `Program.Swept.detach`, `Program.SweptSoFar.erase`: one more instruction.
* `Program.SweptSoFar.invariant`, `Program.exists_swept`: all of them.
* `sweep_exact`: the sweep.
-/

namespace Midend

namespace Program

variable {p q : Program}

/-! ### Use-lists -/

theorem mem_usersOf {v : Value} {i : InstrId} : i ∈ p.usersOf v ↔ ∃ u ∈ p.usesOf v, u.user = i := by
  rw [usersOf, List.mem_eraseDups, List.mem_map]

/-- A part of a list in its order is told by its elements. -/
theorem eq_filter_of_sublist {α : Type} {l l' : List α} {P : α → Bool}
    (hsub : l'.Sublist l) (hl : l.Nodup) (hmem : ∀ a, a ∈ l' ↔ a ∈ l ∧ P a = true) :
    l' = l.filter P := by
  have hperm : l'.Perm (l.filter P) := by
    refine (List.perm_ext_iff_of_nodup (hl.sublist hsub) (hl.filter P)).mpr fun a => ?_
    rw [hmem, List.mem_filter]
  have hall : l'.filter P = l' := List.filter_eq_self.mpr fun a ha => ((hmem a).mp ha).2
  have hfilter := hsub.filter P
  rw [hall] at hfilter
  exact hfilter.eq_of_length hperm.length_eq

/-- The use-lists without the slots of an erased instruction, in their order. -/
theorem Intact.usesOf_detach_eq_filter (h : p.Intact) (i : InstrId) (v : Value) :
    (p.detach i).usesOf v = (p.usesOf v).filter (·.user ≠ i) := by
  have hnodup : (p.usesOf v).Nodup := List.nodup_iff_count.mpr (h.uses.count_le_one .atMost v)
  refine eq_filter_of_sublist ?_ hnodup fun u => ?_
  · exact usesOf_detach_sublist p i v
  · rw [decide_eq_true_iff]
    by_cases hu : u.user = i
    · refine iff_of_false (fun hmem => ?_) fun hmem => hmem.2 hu
      -- An erased instruction has no operands.
      have hread := (h.detach i).uses.readSlot_of_mem .atMost hmem
      rw [readSlot, hu, instr_detach, if_pos rfl] at hread
      cases hread
    · rw [mem_usesOf_detach hu]
      exact (and_iff_left hu).symm

theorem Arranged.block_detach_eq_filter (h : p.Arranged) (i : InstrId) (b : BlockRef) :
    (p.detach i).block b = (p.block b).listing ((p.block b).instrs.filter (· ≠ i)) := by
  have hinstrs := h.instrs_detach i b
  rw [h.block_detach] at hinstrs ⊢
  split at hinstrs
  · next hb =>
    rw [if_pos hb, ← hinstrs]
    rfl
  · next hb =>
    rw [if_neg hb, ← hinstrs]
    exact h.ends b

/-! ### A set of instructions less -/

/-- The second program is the first one without the instructions of a set.  The others are what they
were, in the order in which they were, and so are the uses they make. -/
structure Swept (p : Program) (D : Finset InstrId) (q : Program) : Prop where
  /-- The instructions of the set are erased. -/
  gone : ∀ i ∈ D, q.instr i = { p.instr i with operands := [], place := .erased }
  /-- The others are untouched. -/
  kept : ∀ i ∉ D, q.instr i = p.instr i
  /-- Blocks list the others. -/
  block : ∀ b, q.block b = (p.block b).listing ((p.block b).instrs.filter (· ∉ D))
  /-- Places and links agree with the lists. -/
  arranged : q.Arranged
  /-- There are no blocks more or less. -/
  func : ∀ f, ∃ blocks, blocks.size = (p.func f).blocks.size ∧
    q.func f = { p.func f with blocks := blocks }
  /-- The uses by the others are listed. -/
  uses : ∀ v, q.usesOf v = (p.usesOf v).filter (·.user ∉ D)
  /-- Nothing else has changed. -/
  rest : ∃ fs is ls us, q = { p with funcs := fs, instrs := is, links := ls, uses := us }

theorem Swept.refl (h : p.Arranged) : p.Swept ∅ p where
  gone i hi := absurd hi (Finset.notMem_empty i)
  kept _ _ := rfl
  block b := by simpa using h.ends b
  arranged := h
  func f := ⟨_, rfl, rfl⟩
  uses v := by simp
  rest := ⟨_, _, _, _, rfl⟩

/-- Two filters are one. -/
theorem filter_notMem_insert {α β : Type} [DecidableEq β] (g : α → β) (D : Finset β) (b : β)
    (l : List α) : (l.filter (g · ∉ D)).filter (g · ≠ b) = l.filter (g · ∉ insert b D) := by
  rw [List.filter_filter]
  refine List.filter_congr fun a _ => ?_
  simp [Finset.mem_insert, not_or]

/-- **One more instruction.** -/
theorem Swept.detach {D : Finset InstrId} (h : p.Swept D q) (hq : q.Intact) {i : InstrId} (hi : i ∉ D) :
    p.Swept (insert i D) (q.detach i) where
  gone j hj := by
    rw [instr_detach]
    split
    · next hij =>
      rw [← hij, h.kept i hi]
    · next hij =>
      exact h.gone j ((Finset.mem_insert.mp hj).resolve_left (Ne.symm hij))
  kept j hj := by
    rw [Finset.mem_insert, not_or] at hj
    rw [instr_detach, if_neg (Ne.symm hj.1), h.kept j hj.2]
  block b := by
    rw [hq.block_detach_eq_filter, h.block]
    exact congrArg (p.block b).listing (filter_notMem_insert id D i _)
  arranged := hq.toArranged.detach i
  func f := by
    obtain ⟨blocks, hsize, hfunc⟩ := h.func f
    obtain ⟨blocks', hsize', hfunc'⟩ := q.func_detach i f
    rw [hfunc] at hsize' hfunc'
    exact ⟨blocks', hsize'.trans hsize, hfunc'⟩
  uses v := by
    rw [hq.usesOf_detach_eq_filter, h.uses]
    exact filter_notMem_insert Use.user D i _
  rest := by
    obtain ⟨fs, is, ls, us, heq⟩ := h.rest
    obtain ⟨fs', is', ls', us', heq'⟩ := q.exists_detach i
    exact ⟨fs', is', ls', us', by rw [heq', heq]⟩

/-! ### The work of a sweep -/

/-- Every pure instruction of the function belongs to the set if all its users do. -/
def Absorbs (p : Program) (f : FuncId) (E : Set InstrId) : Prop :=
  ∀ i ∈ p.funcInstrs f, (p.instr i).isPure = true → (∀ u ∈ p.usersOf (.instr i), u ∈ E) → i ∈ E

/-- The instructions of a set are erased, and others wait. -/
structure SweptSoFar (p : Program) (f : FuncId) (D : Finset InstrId) (q : Program)
    (queue : List InstrId) : Prop where
  /-- The set is erased. -/
  swept : p.Swept D q
  /-- The program can be relied on. -/
  intact : q.Intact
  /-- What is erased was in the function. -/
  within : ∀ i ∈ D, i ∈ p.funcInstrs f
  /-- So was what waits. -/
  queued : ∀ i ∈ queue, i ∈ p.funcInstrs f
  /-- What is erased has to be. -/
  least : ∀ E, p.Absorbs f E → ∀ i ∈ D, i ∈ E
  /-- What is dead waits. -/
  waits : ∀ i ∈ p.funcInstrs f, q.IsDead i → i ∈ queue

section Function

variable {f : FuncId} {D : Finset InstrId} {queue : List InstrId} {i : InstrId}

theorem Intact.placed_of_mem_funcInstrs (h : p.Intact) (hi : i ∈ p.funcInstrs f) :
    ∃ b, (p.instr i).place = .inBlock b := by
  obtain ⟨k, hi⟩ := mem_funcInstrs.mp hi
  exact ⟨_, (h.listed _ i).mp hi⟩

theorem Intact.isErased_eq_false (h : p.Intact) (hi : i ∈ p.funcInstrs f) :
    (p.instr i).isErased = false := by
  obtain ⟨b, hb⟩ := h.placed_of_mem_funcInstrs hi
  rw [Instr.isErased, hb]
  rfl

/-- What is dead has not been erased. -/
theorem Swept.notMem_of_isDead (h : p.Swept D q) (hi : q.IsDead i) : i ∉ D := by
  intro hmem
  have hplace := hi.inPlace
  rw [h.gone i hmem] at hplace
  cases hplace

/-- All uses by others are gone just if all users are. -/
theorem Swept.usesOf_eq_nil_iff (h : p.Swept D q) (v : Value) :
    q.usesOf v = [] ↔ ∀ u ∈ p.usersOf v, u ∈ D := by
  rw [h.uses, List.filter_eq_nil_iff]
  constructor
  · intro hall j hj
    obtain ⟨u, hu, rfl⟩ := mem_usersOf.mp hj
    simpa using hall u hu
  · intro hall u hu
    simpa using hall u.user (mem_usersOf.mpr ⟨u, hu, rfl⟩)

namespace SweptSoFar

/-- All instructions of the function wait to begin with, in any order. -/
theorem start (hp : p.Intact) (hqueue : ∀ i, i ∈ queue ↔ i ∈ p.funcInstrs f) :
    p.SweptSoFar f ∅ p queue where
  swept := .refl hp.toArranged
  intact := hp
  within i hi := absurd hi (Finset.notMem_empty i)
  queued i := (hqueue i).mp
  least _ _ i hi := absurd hi (Finset.notMem_empty i)
  waits i hi _ := (hqueue i).mpr hi

theorem skip (h : p.SweptSoFar f D q (i :: queue)) (hi : ¬ q.IsDead i) : p.SweptSoFar f D q queue where
  swept := h.swept
  intact := h.intact
  within := h.within
  queued j hj := h.queued j (List.mem_cons_of_mem i hj)
  least := h.least
  waits j hj hdead := by
    refine (List.mem_cons.mp (h.waits j hj hdead)).resolve_left ?_
    rintro rfl
    exact hi hdead

theorem inBlock (h : p.SweptSoFar f D q (i :: queue)) (hp : p.Intact) (hi : q.IsDead i) :
    ∃ b, (q.instr i).place = .inBlock b := by
  rw [h.swept.kept i (h.swept.notMem_of_isDead hi)]
  exact hp.placed_of_mem_funcInstrs (h.queued i List.mem_cons_self)

/-- **A dead instruction is erased.**  What is dead now was dead before, or it was used by the
instruction that is erased and lines up as its operand. -/
theorem erase (h : p.SweptSoFar f D q (i :: queue)) (hp : p.Intact) (hverify : p.verify = [])
    (hi : q.IsDead i) :
    p.SweptSoFar f (insert i D) (q.detach i) (queue ++ (q.instr i).operandInstrs) := by
  have hnew : i ∉ D := h.swept.notMem_of_isDead hi
  have hmem : i ∈ p.funcInstrs f := h.queued i List.mem_cons_self
  have hinstr : q.instr i = p.instr i := h.swept.kept i hnew
  refine ⟨h.swept.detach h.intact hnew, h.intact.detach i, fun j hj => ?within, fun j hj => ?queued,
    fun E hE j hj => ?least, fun j hj hdead => ?waits⟩
  case within =>
    rcases Finset.mem_insert.mp hj with rfl | hj
    · exact hmem
    · exact h.within j hj
  case queued =>
    rcases List.mem_append.mp hj with hj | hj
    · exact h.queued j (List.mem_cons_of_mem i hj)
    · -- The verifier has found the operands of the instruction in its function.
      obtain ⟨k, hlisted⟩ := mem_funcInstrs.mp hmem
      have hf : f < p.funcs.size := (hasBlock_of_mem hlisted).func_lt
      rw [hinstr] at hj
      obtain ⟨w, hw, hd⟩ := hp.present_of_verifyFunc (verify_eq_nil_iff.mp hverify f hf) hmem
        (Instr.mem_operandInstrs.mp hj)
      exact hd j (Option.some.inj hw).symm
  case least =>
    rcases Finset.mem_insert.mp hj with rfl | hj
    · -- All its users are erased, so every set that absorbs has them, and then the instruction.
      have husers := (h.swept.usesOf_eq_nil_iff _).mp hi.unused
      have hpure := hi.isPure
      rw [hinstr] at hpure
      exact hE j hmem hpure fun u hu => h.least E hE u (husers u hu)
    · exact h.least E hE j hj
  case waits =>
    have hne : j ≠ i := by
      rintro rfl
      have hplace := hdead.inPlace
      rw [instr_detach, if_pos rfl] at hplace
      cases hplace
    have hsame : (q.detach i).instr j = q.instr j := by
      rw [instr_detach, if_neg (Ne.symm hne)]
    have hunused := hdead.unused
    rw [h.intact.usesOf_detach_eq_filter, List.filter_eq_nil_iff] at hunused
    cases huses : q.usesOf (.instr j) with
    | nil =>
      have hbefore : q.IsDead j := ⟨hsame ▸ hdead.inPlace, hsame ▸ hdead.isPure, huses⟩
      exact List.mem_append_left _ ((List.mem_cons.mp (h.waits j hj hbefore)).resolve_left hne)
    | cons u uses =>
      -- It was used before, so the one that used it is the one that is gone.
      have hu : u ∈ q.usesOf (.instr j) := by
        rw [huses]
        exact List.mem_cons_self
      have huser : u.user = i := by simpa using hunused u hu
      have hread := h.intact.uses.readSlot_of_mem .atMost hu
      refine List.mem_append_right _ (Instr.mem_operandInstrs.mpr ?_)
      rw [← huser]
      exact mem_operands_of_readSlot hread

theorem invariant (hp : p.Intact) (hverify : p.verify = []) :
    SweepInvariant fun q queue n => ∃ D, D.card = n ∧ p.SweptSoFar f D q queue where
  skip h hi := by
    obtain ⟨D, hn, h⟩ := h
    exact ⟨D, hn, h.skip hi⟩
  inBlock h hi := by
    obtain ⟨D, -, h⟩ := h
    exact h.inBlock hp hi
  erase h hi := by
    obtain ⟨D, rfl, h⟩ := h
    exact ⟨_, Finset.card_insert_of_notMem (h.swept.notMem_of_isDead hi), h.erase hp hverify hi⟩

/-- Nothing is dead once the queue is empty, so what is erased absorbs. -/
theorem isLeast (h : p.SweptSoFar f D q []) (hp : p.Intact) :
    IsLeast {E : Set InstrId | p.Absorbs f E} D := by
  refine ⟨fun i hi hpure husers => ?_, fun E hE i hi => h.least E hE i hi⟩
  by_contra hkept
  have hinstr : q.instr i = p.instr i := h.swept.kept i hkept
  have hdead : q.IsDead i := by
    refine ⟨?_, ?_, (h.swept.usesOf_eq_nil_iff _).mpr husers⟩
    · rw [hinstr]
      exact hp.isErased_eq_false hi
    · rw [hinstr]
      exact hpure
  exact List.not_mem_nil (h.waits i hi hdead)

/-- What is left of the function was there before. -/
theorem mem_of_mem_funcInstrs (h : p.SweptSoFar f D q []) (hi : i ∈ q.funcInstrs f) :
    i ∈ p.funcInstrs f := by
  obtain ⟨k, hk⟩ := mem_funcInstrs.mp hi
  rw [h.swept.block] at hk
  exact mem_funcInstrs.mpr ⟨k, (List.mem_filter.mp hk).1⟩

end SweptSoFar

/-- **A sweep erases the least set that absorbs,** whatever the order in which the instructions wait. -/
theorem exists_swept (hp : p.Intact) (hverify : p.verify = [])
    (hqueue : ∀ i, i ∈ queue ↔ i ∈ p.funcInstrs f) {fuel : Nat}
    (hfuel : queue.length + p.slotCount ≤ fuel) (s : Session) (hs : s.program = p) :
    ∃ D t, sweepFrom fuel queue s = (.ok D.card, t) ∧ p.SweptSoFar f D t.program [] ∧
      t.stats = s.stats := by
  have hstart : ∃ D, D.card = 0 ∧ p.SweptSoFar f D s.program queue := by
    rw [hs]
    exact ⟨∅, Finset.card_empty, .start hp hqueue⟩
  obtain ⟨n, t, hrun, ⟨D, hn, hD⟩, hstats⟩ :=
    ((SweptSoFar.invariant hp hverify).succeeds fuel queue 0 s hstart (hs ▸ hfuel)).exists_eq
  rw [Nat.zero_add] at hn
  rw [← hn] at hrun
  exact ⟨D, t, hrun, hD, hstats⟩

end Function

end Program

/-! ### The sweep -/

/-- A queue in which nothing is dead is passed over. -/
theorem sweepFrom_of_not_dead {s : Session} (fuel : Nat) (queue : List InstrId)
    (hqueue : ∀ i ∈ queue, ¬ s.program.IsDead i) (hfuel : queue.length ≤ fuel) :
    sweepFrom fuel queue s = (.ok 0, s) := by
  induction queue generalizing fuel with
  | nil =>
    rw [sweepFrom]
    rfl
  | cons i queue ih =>
    rw [List.forall_mem_cons] at hqueue
    cases fuel with
    | zero => cases hfuel
    | succ fuel =>
      have hedit : Pass.edit (dce i) s = (.ok false, s) := by
        unfold Pass.edit
        rw [Program.dce_run, if_neg hqueue.1]
      have hprogram : Pass.program s = (.ok s.program, s) := rfl
      rw [sweepFrom, Act.bind_of_ok hprogram, Act.bind_of_ok hedit]
      exact ih fuel hqueue.2 (Nat.le_of_succ_le_succ hfuel)

/-- What a sweep counts and reports is what its queue yields. -/
theorem sweep_of_sweepFrom {s t : Session} {f : FuncId} {n : Nat}
    (h : sweepFrom ((s.program.funcInstrs f).length + s.program.slotCount) (s.program.funcInstrs f) s =
      (.ok n, t)) :
    sweep f s = (.ok (n ≠ 0), { t with stats := { t.stats with erased := t.stats.erased + n } }) := by
  have hprogram : Pass.program s = (.ok s.program, s) := rfl
  rw [sweep, Act.bind_of_ok hprogram, Act.bind_of_ok h]
  rfl

/-- **A sweep is exact.**  Let the verifier have nothing to say about a program that can be built.  Then
there is a least set of instructions of the function to which every pure instruction belongs whose users
all belong to it, and a sweep erases just this set: all other instructions are what they were, in the order
in which they were.  The erased instructions are counted, and the sweep tells whether there were any.  The
set does not depend on the order in which the instructions wait, and a second sweep does nothing at all. -/
theorem sweep_exact {p : Program} (hp : p.Obtained) (hverify : p.verify = []) (f : FuncId) :
    ∃ D : Finset InstrId, (∀ i ∈ D, i ∈ p.funcInstrs f) ∧
      IsLeast {E : Set InstrId | p.Absorbs f E} D ∧
      ∀ s : Session, s.program = p →
        (∃ changed t, sweep f s = (.ok changed, t) ∧ (changed = true ↔ D.Nonempty) ∧
          p.Swept D t.program ∧ t.stats = { s.stats with erased := s.stats.erased + D.card } ∧
          ∀ u : Session, u.program = t.program → sweep f u = (.ok false, u)) ∧
        ∀ queue fuel, queue.Perm (p.funcInstrs f) → queue.length + p.slotCount ≤ fuel →
          ∃ t, sweepFrom fuel queue s = (.ok D.card, t) ∧ p.Swept D t.program ∧ t.stats = s.stats := by
  have hintact := hp.intact
  have hself : ∀ i, i ∈ p.funcInstrs f ↔ i ∈ p.funcInstrs f := fun _ => Iff.rfl
  obtain ⟨D, t₀, -, hD, -⟩ :=
    Program.exists_swept hintact hverify hself (Nat.le_refl _) { program := p } rfl
  have hleast := hD.isLeast hintact
  -- Whatever the order, it is the same set.
  have hany : ∀ s : Session, s.program = p → ∀ queue fuel, queue.Perm (p.funcInstrs f) →
      queue.length + p.slotCount ≤ fuel →
      ∃ t, sweepFrom fuel queue s = (.ok D.card, t) ∧ p.SweptSoFar f D t.program [] ∧
        t.stats = s.stats := by
    intro s hs queue fuel hperm hfuel
    obtain ⟨D', t, hrun, hD', hstats⟩ :=
      Program.exists_swept hintact hverify (fun _ => hperm.mem_iff) hfuel s hs
    obtain rfl : D' = D := Finset.coe_injective ((hD'.isLeast hintact).unique hleast)
    exact ⟨t, hrun, hD', hstats⟩
  refine ⟨D, hD.within, hleast, fun s hs => ⟨?_, fun queue fuel hperm hfuel => ?_⟩⟩
  · subst hs
    obtain ⟨t, hrun, hswept, hstats⟩ := hany s rfl _ _ (.refl _) (Nat.le_refl _)
    refine ⟨_, _, sweep_of_sweepFrom hrun, ?_, hswept.swept, ?_, fun u hu => ?_⟩
    · rw [decide_eq_true_iff, Finset.card_ne_zero]
    · rw [hstats]
    · -- What is left waits in the second sweep, and none of it is dead.
      have hidle : ∀ i ∈ u.program.funcInstrs f, ¬ u.program.IsDead i := by
        intro i hi hdead
        rw [hu] at hi hdead
        exact List.not_mem_nil (hswept.waits i (hswept.mem_of_mem_funcInstrs hi) hdead)
      exact sweep_of_sweepFrom (sweepFrom_of_not_dead _ _ hidle (Nat.le_add_right _ _))
  · obtain ⟨t, hrun, hswept, hstats⟩ := hany s hs queue fuel hperm hfuel
    exact ⟨t, hrun, hswept.swept, hstats⟩

/-- Three instructions that lead to nothing, and two that use each other. -/
def idleSums : ByteArray :=
  ("func @f(%a: i32) : i32 \x7b\nentry:\n    %x = add i32 %a, 1\n    %y = mul i32 %x, 2\n" ++
    "    %z = sub i32 %y, %x\n    br one\none:\n    %s = add i32 %t, %a\n    br two\n" ++
    "two:\n    %t = sub i32 %s, %a\n    condbr 1, one, out\nout:\n    ret i32 %a\n\x7d\n").toUTF8

/-- The three go, one after the other, and the two stay although nothing else uses them. -/
theorem sweep_exact_idle : ∃ p, Program.parse "m" idleSums = .ok p ∧ p.verify = [] ∧
    ∃ D : Finset InstrId, IsLeast {E : Set InstrId | p.Absorbs 0 E} D ∧ D.card = 3 ∧
      4 ∉ D ∧ p.usersOf (.instr 4) = [6] ∧ p.usersOf (.instr 6) = [4] ∧
      ∃ t, sweep 0 { program := p } = (.ok true, t) ∧ p.Swept D t.program ∧ t.stats.erased = 3 ∧
        sweep 0 t = (.ok false, t) := by
  obtain ⟨p, hp, hfacts⟩ : ∃ p, Program.parse "m" idleSums = .ok p ∧
      (p.verify.isEmpty && (sweep 0 { program := p }).2.stats.erased == 3 &&
        ((sweep 0 { program := p }).2.program.block ⟨0, 1⟩).instrs == [4, 5] &&
        p.usersOf (.instr 4) == [6] && p.usersOf (.instr 6) == [4]) = true :=
    Program.exists_of_parse (by decide +kernel)
  simp only [Bool.and_eq_true, beq_iff_eq, List.isEmpty_iff] at hfacts
  obtain ⟨⟨⟨⟨hverify, herased⟩, hleft⟩, hfour⟩, hsix⟩ := hfacts
  obtain ⟨D, -, hleast, hsweep⟩ := sweep_exact (.parse hp) hverify 0
  obtain ⟨⟨changed, t, hrun, hchanged, hswept, hstats, hsecond⟩, -⟩ := hsweep { program := p } rfl
  rw [hrun] at herased hleft
  have hcard : D.card = 3 := by
    rw [hstats, Nat.zero_add] at herased
    exact herased
  have hkept : 4 ∉ D := by
    have hmem : 4 ∈ (t.program.block ⟨0, 1⟩).instrs := by
      rw [hleft]
      exact List.mem_cons_self
    rw [hswept.block] at hmem
    exact of_decide_eq_true (List.mem_filter.mp hmem).2
  have htrue : changed = true := hchanged.mpr (Finset.card_pos.mp (by rw [hcard]; decide))
  rw [htrue] at hrun
  exact ⟨p, hp, hverify, D, hleast, hcard, hkept, hfour, hsix, t, hrun, hswept, herased,
    hsecond t rfl⟩

end Midend
