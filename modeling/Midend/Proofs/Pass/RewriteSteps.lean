import Midend.Proofs.Pass.Simplifications
import Midend.Proofs.Program.WellFormed

/-!
# Rewriting steps

Whatever the passes do to a program, they do by four kinds of steps: they erase an instruction that
nobody uses, make a constant, put a constant for a value, and merge the operands of an instruction.
What a run of passes keeps is what these steps keep.  All of them keep the program well-formed; all
but the last keep definitions before uses, and a merge does so unless it is misplaced.

## Main definitions

* `Change`: the steps that are no merge.
* `Merge`, `Merge.Misplaced`: the merges, and those that put a value before its definition.
* `SiblingMerge`, `SiblingMerge.outcome`: a merge with the operands it is about, and what it leaves.
* `Rewrites`: a sequence of steps, with the merges among them.
* `Program.Onward`: the way through a block, which leads on even where instructions were erased.

## Main results

* `Merge.ordered_iff`: a merge puts a use before a definition just if it is misplaced.
* `Rewrites.wellFormed`, `Rewrites.ordered`, `Rewrites.onward`: what a sequence of steps keeps.
-/

namespace Midend

/-! ### Merging -/

namespace Program

variable {p : Program}

/-- Puts `v` for the instruction `b`, and makes it the first operand of that instruction. -/
def merge (p : Program) (b : InstrId) (v : Value) : Program :=
  (p.redirect (.instr b) v).replaceOperand ⟨b, 0⟩ v

theorem sameButOperands_merge (p : Program) (b : InstrId) (v : Value) :
    SameButOperands p (p.merge b v) :=
  (sameButOperands_redirect p (.instr b) v).trans (sameButOperands_replaceOperand _ _ _)

/-- What a merge leaves in an instruction: what was there, or the value in the merged instruction
and its users. -/
theorem UsesExact.mem_operands_merge (h : p.UsesExact) {b j : InstrId} {v : Value}
    {w : Option Value} (hw : w ∈ ((p.merge b v).instr j).operands) :
    w ∈ (p.instr j).operands ∨
      w = some v ∧ (j = b ∨ some (.instr b) ∈ (p.instr j).operands) := by
  have hredirect : w ∈ ((p.redirect (.instr b) v).instr j).operands ∨ w = some v ∧ j = b := by
    rw [merge, instr_replaceOperand] at hw
    split at hw
    · next hj =>
      rcases List.mem_or_eq_of_mem_set hw with hw | hw
      · exact .inl hw
      · exact .inr ⟨hw, hj.symm⟩
    · exact .inl hw
  rcases hredirect with hw | ⟨hw, hj⟩
  · rcases h.mem_operands_redirect hw with hw | ⟨hw, hb⟩
    · exact .inl hw
    · exact .inr ⟨hw, .inr hb⟩
  · exact .inr ⟨hw, .inl hj⟩

/-- The value reaches the merged instruction and all its users. -/
theorem UsesExact.value_mem_operands_merge (h : p.UsesExact) {b j : InstrId} (v : Value)
    (hb : (p.instr b).operands ≠ [])
    (hj : j = b ∨ some (.instr b) ∈ (p.instr j).operands) :
    some v ∈ ((p.merge b v).instr j).operands := by
  rw [merge, instr_replaceOperand]
  by_cases hjb : b = j
  · subst hjb
    rw [if_pos rfl]
    have hlength : 0 < ((p.redirect (.instr b) v).instr b).operands.length := by
      rw [length_operands_redirect]
      exact List.length_pos_iff.mpr hb
    exact List.mem_set hlength _
  · rw [if_neg hjb, h.instr_redirect, Instr.substitute]
    have hmem := hj.resolve_left (Ne.symm hjb)
    exact List.mem_map.mpr ⟨_, hmem, by simp [substituteIn]⟩

/-- An instruction with operands is in a block. -/
theorem Coherent.exists_block (h : p.Coherent) {i : InstrId} (hi : (p.instr i).operands ≠ []) :
    ∃ b, (p.instr i).place = .inBlock b := by
  refine Classical.byContradiction fun hnone => ?_
  exact hi (h.bare i fun b hb => hnone ⟨b, hb⟩)

/-- Two operands of an instruction can be merged: the values at hand are the same for both, for
everything that uses the second one is in its function. -/
theorem WellFormed.merge (h : p.WellFormed) {i a b : InstrId} {v : Value}
    (hops : (p.instr i).operands = [some (.instr a), some (.instr b)])
    (hv : some v ∈ (p.instr a).operands) (hb : (p.instr b).operands ≠ []) :
    (p.merge b v).WellFormed := by
  obtain ⟨c, hc⟩ := h.exists_block (i := i) (by simp [hops])
  obtain ⟨_, hwa, hua⟩ := h.usable i c hc (some (.instr a)) (by simp [hops])
  obtain ⟨_, hwb, hub⟩ := h.usable i c hc (some (.instr b)) (by simp [hops])
  cases hwa
  cases hwb
  obtain ⟨ca, hca, hfa, -⟩ := hua
  obtain ⟨cb, hcb, hfb, -⟩ := hub
  -- The value is at hand for `a`, hence in the function of `i`, which is that of `b` as well.
  have hvu : p.Usable c.func v := by
    obtain ⟨_, hw, hu⟩ := h.usable a ca hca _ hv
    cases hw
    rwa [hfa] at hu
  -- The users of `b` are in its function.
  have hredirect : (p.redirect (.instr b) v).WellFormed := by
    refine h.redirect fun j cj hj hmem => ?_
    obtain ⟨_, hw, hu⟩ := h.usable j cj hj _ hmem
    cases hw
    obtain ⟨cb', hcb', hf', -⟩ := hu
    rw [hcb] at hcb'
    cases hcb'
    rwa [← hf', hfb]
  have hsame := sameButOperands_redirect p (.instr b) v
  refine hredirect.replaceOperand ?_ fun c' hc' => ?_
  · rw [length_operands_redirect]
    exact List.length_pos_iff.mpr hb
  · rw [hsame.place, hcb] at hc'
    cases hc'
    rw [hsame.usable, hfb]
    exact hvu

end Program

/-- A merge: a value takes the place of an instruction. -/
structure Merge where
  /-- The program before. -/
  before : Program
  /-- The instruction that is replaced, and whose first operand is. -/
  second : InstrId
  /-- The value. -/
  value : Value

namespace Merge

/-- The program after a merge. -/
def after (m : Merge) : Program := m.before.merge m.second m.value

/-- The merges of the peephole walk: the replaced instruction is the second operand of another one,
the value is the first operand of the first operand. -/
def Valid (m : Merge) : Prop :=
  ∃ i a, siblings? m.before i = some (a, m.second) ∧
    (m.before.instr a).operands.head? = some (some m.value)

/-- The value is an instruction, and the replaced instruction or one of its users stands before it
in its block. -/
def Misplaced (m : Merge) : Prop :=
  ∃ d j c, m.value = .instr d ∧ (m.before.instr d).place = .inBlock c ∧
    (m.before.instr j).place = .inBlock c ∧
    (j = m.second ∨ some (.instr m.second) ∈ (m.before.instr j).operands) ∧ j ≤ d

variable {m : Merge}

theorem wellFormed (h : m.Valid) (hp : m.before.WellFormed) : m.after.WellFormed := by
  obtain ⟨i, a, hsib, hhead⟩ := h
  obtain ⟨hops, -, hb⟩ := operands_of_siblings hsib
  exact hp.merge hops (List.mem_of_head? hhead) hb

/-- A merge that is not misplaced keeps definitions before uses. -/
theorem ordered (h : ¬ m.Misplaced) (hexact : m.before.UsesExact) (hp : m.before.Ordered) :
    m.after.Ordered := by
  refine hp.of_operands (Program.sameButOperands_merge _ m.second m.value) fun j d c hj hd hmem => ?_
  rcases hexact.mem_operands_merge hmem with hmem | ⟨hv, huser⟩
  · exact .inl hmem
  · refine .inr (Nat.lt_of_not_le fun hle => ?_)
    exact h ⟨d, j, c, (Option.some.inj hv).symm, hd, hj, huser, hle⟩

/-- **A merge puts a use before a definition just if it is misplaced.** -/
theorem ordered_iff (h : m.Valid) (hexact : m.before.UsesExact) (hp : m.before.Ordered) :
    m.after.Ordered ↔ ¬ m.Misplaced := by
  refine ⟨?_, fun hm => ordered hm hexact hp⟩
  rintro hord ⟨d, j, c, hvalue, hd, hj, huser, hle⟩
  obtain ⟨i, a, hsib, -⟩ := h
  have hsame := Program.sameButOperands_merge m.before m.second m.value
  obtain ⟨-, -, hsecond⟩ := operands_of_siblings hsib
  have hmem := hexact.value_mem_operands_merge m.value hsecond huser
  rw [hvalue] at hmem
  -- Now `d` is an operand of `j`, and both stand where they stood.
  have hlt : d < j := by
    refine hord j d c ?_ ?_ ?_
    · exact (hsame.place j).trans hj
    · exact (hsame.place d).trans hd
    · rw [after, hvalue]
      exact hmem
  exact absurd hlt (Nat.not_lt_of_le hle)

end Merge

/-- A merge of the peephole walk, with all that takes part in it: the operands of `user` are `first` and
the instruction that is replaced. -/
structure SiblingMerge extends Merge where
  /-- The instruction whose operands are merged. -/
  user : InstrId
  /-- Its first operand. -/
  first : InstrId

namespace SiblingMerge

/-- The operands look alike, and the value is the first operand of the first. -/
structure Fits (m : SiblingMerge) : Prop where
  /-- The operands look alike. -/
  siblings : siblings? m.before m.user = some (m.first, m.second)
  /-- The value is the first operand of the first. -/
  head : (m.before.instr m.first).operands.head? = some (some m.value)

/-- Nobody uses the first operand any more. -/
def Frees (m : SiblingMerge) : Prop := m.after.usesOf (.instr m.first) = []

instance (m : SiblingMerge) : Decidable m.Frees :=
  inferInstanceAs (Decidable (m.after.usesOf (.instr m.first) = []))

/-- The program after the merge, with the first operand erased if nobody uses it. -/
def outcome (m : SiblingMerge) : Program :=
  if m.Frees then m.after.detach m.first else m.after

variable {m : SiblingMerge}

/-- A first operand that is in place is erased just if nobody uses it. -/
theorem erase_first_run (hplace : (m.before.instr m.first).isErased = false) :
    ∃ r, erase m.first m.after = (.ok r, m.outcome) := by
  have hplace' : (m.after.instr m.first).isErased = false := by
    rw [Instr.isErased, Merge.after, (Program.sameButOperands_merge _ _ _).place]
    exact hplace
  rw [Program.erase_run, if_neg (by simp [hplace']), outcome]
  by_cases hfree : m.Frees
  · have huses : m.after.usesOf (.instr m.first) = [] := hfree
    rw [if_neg (not_not_intro huses), if_pos hfree]
    exact ⟨_, rfl⟩
  · have huses : m.after.usesOf (.instr m.first) ≠ [] := hfree
    rw [if_pos huses, if_neg hfree]
    exact ⟨_, rfl⟩

theorem Fits.valid (h : m.Fits) : m.Valid := ⟨m.user, m.first, h.siblings, h.head⟩

/-- The value is not the instruction that is replaced. -/
theorem Fits.value_ne (h : m.Fits) : m.value ≠ .instr m.second := by
  obtain ⟨-, -, -, hhead⟩ := siblings?_eq_some h.siblings
  intro hvalue
  rw [h.head, hvalue] at hhead
  exact hhead rfl

/-- Nobody uses the instruction that is replaced any more. -/
theorem Fits.second_unused (h : m.Fits) : m.after.usesOf (.instr m.second) = [] :=
  Program.usesOf_replaceOperand_eq_nil h.value_ne
    (Program.usesOf_redirect_self m.before (Ne.symm h.value_ne))

/-- If both operands are the same instruction, nobody uses it any more. -/
theorem Fits.frees (h : m.Fits) (heq : m.first = m.second) : m.Frees := by
  unfold Frees
  rw [heq]
  exact h.second_unused

/-- If they are two instructions, the first stays an operand, unless the second operand of the
instruction is the instruction itself. -/
theorem Fits.eq_of_frees (h : m.Fits) (hp : m.before.WellFormed) (hfree : m.Frees) :
    m.first = m.second ∨ m.user = m.second := by
  obtain ⟨hops, -⟩ := siblings?_eq_some h.siblings
  have hnot := (Merge.wellFormed h.valid hp).exact.not_mem_operands hfree m.user
  apply Classical.byContradiction
  intro hne
  obtain ⟨hfirst, huser⟩ := not_or.mp hne
  apply hnot
  have hkept : substituteIn (.instr m.second) m.value (some (.instr m.first)) =
      some (.instr m.first) := by
    unfold substituteIn
    rw [if_neg]
    simpa using hfirst
  rw [Merge.after, Program.merge, Program.instr_replaceOperand, if_neg (Ne.symm huser),
    hp.exact.instr_redirect, Instr.substitute, hops, List.map_cons, hkept]
  exact List.mem_cons_self

end SiblingMerge

/-! ### Other steps -/

/-- A step that is no merge. -/
inductive Change (p : Program) : Program → Prop where
  /-- An instruction that nobody uses is erased. -/
  | erase (i : InstrId) (huses : p.usesOf (.instr i) = []) : Change p (p.detach i)
  /-- A constant is made. -/
  | constant (c : Const) : Change p { p with consts := p.consts.push c }
  /-- A constant takes the place of a value. -/
  | substitute (old : Value) (c : ConstId) : Change p (p.redirect old (.const c))

namespace Change

variable {p q : Program}

theorem wellFormed (h : Change p q) (hp : p.WellFormed) : q.WellFormed := by
  cases h with
  | erase i huses => exact hp.detach huses
  | constant c => exact hp.withConsts _
  | substitute old c => exact hp.redirect_const old c

theorem ordered (h : Change p q) (hexact : p.UsesExact) (hp : p.Ordered) : q.Ordered := by
  cases h with
  | erase i => exact hp.detach i
  | constant c => exact hp
  | substitute old c => exact hp.redirect_const hexact old c

end Change

/-! ### The way through a block -/

/-- From every instruction in the list, the way leads on to a later one in the list, or ends. -/
def Program.Onward (l : List InstrId) (p : Program) : Prop :=
  ∀ i ∈ l, ∀ n, p.next? i = some n → n ∈ l ∧ i < n

namespace Program.Onward

variable {p q : Program} {l : List InstrId}

/-- A block that was not touched yet. -/
theorem ofBlock (h : p.Coherent) (b : BlockRef) : Onward (p.block b).instrs p := by
  intro i hi n hn
  obtain ⟨before, after, hl⟩ := List.append_of_mem hi
  rw [h.next?_eq hl] at hn
  have hafter : n ∈ after := List.mem_of_head? hn
  have hincreasing := h.increasing b
  rw [hl, List.pairwise_append, List.pairwise_cons] at hincreasing
  rw [hl]
  exact ⟨List.mem_append_right _ (List.mem_cons_of_mem i hafter), hincreasing.2.1.1 n hafter⟩

theorem congr (h : Onward l p) (hnext : ∀ i, q.next? i = p.next? i) : Onward l q := by
  intro i hi n hn
  rw [hnext] at hn
  exact h i hi n hn

/-- Where the way to an instruction is joined with the way from it, it leads on twice. -/
theorem detach (h : Onward l p) (hp : p.Arranged) (j : InstrId) : Onward l (p.detach j) := by
  intro i hi n hn
  rcases hp.next?_detach j i with heq | ⟨hto, heq⟩
  · rw [heq] at hn
    exact h i hi n hn
  · rw [heq] at hn
    obtain ⟨hj, hlt⟩ := h i hi j hto
    obtain ⟨hnl, hlt'⟩ := h j hj n hn
    exact ⟨hnl, Nat.lt_trans hlt hlt'⟩

end Program.Onward

/-! ### Sequences of steps -/

/-- A sequence of steps from one program to another, with the merges among them. -/
inductive Rewrites : List Merge → Program → Program → Prop where
  /-- No step at all. -/
  | refl (p : Program) : Rewrites [] p p
  /-- A further step that is no merge. -/
  | change {ms : List Merge} {p q r : Program} : Rewrites ms p q → Change q r → Rewrites ms p r
  /-- A further merge. -/
  | merge {ms : List Merge} {p : Program} {m : Merge} : Rewrites ms p m.before → m.Valid →
      Rewrites (ms ++ [m]) p m.after

namespace Rewrites

variable {p q r : Program} {ms ms' : List Merge}

theorem trans (h : Rewrites ms p q) (h' : Rewrites ms' q r) : Rewrites (ms ++ ms') p r := by
  induction h' with
  | refl q =>
    rw [List.append_nil]
    exact h
  | change _ hc ih => exact (ih h).change hc
  | merge _ hm ih =>
    rw [← List.append_assoc]
    exact (ih h).merge hm

theorem wellFormed (h : Rewrites ms p q) (hp : p.WellFormed) : q.WellFormed := by
  induction h with
  | refl p => exact hp
  | change _ hc ih => exact hc.wellFormed (ih hp)
  | merge _ hm ih => exact Merge.wellFormed hm (ih hp)

/-- Every merge starts from a well-formed program and is one of the peephole walk. -/
theorem of_mem (h : Rewrites ms p q) (hp : p.WellFormed) {m : Merge} (hm : m ∈ ms) :
    m.before.WellFormed ∧ m.Valid := by
  induction h with
  | refl p => cases hm
  | change _ _ ih => exact ih hp hm
  | merge hpq hvalid ih =>
    rcases List.mem_append.mp hm with hm | hm
    · exact ih hp hm
    · rw [List.mem_singleton.mp hm]
      exact ⟨hpq.wellFormed hp, hvalid⟩

/-- **Only a misplaced merge can put a use before a definition.** -/
theorem ordered (h : Rewrites ms p q) (hms : ∀ m ∈ ms, ¬ m.Misplaced) (hp : p.WellFormed)
    (hord : p.Ordered) : q.Ordered := by
  induction h with
  | refl p => exact hord
  | change hpq hc ih => exact hc.ordered (hpq.wellFormed hp).exact (ih hms hp hord)
  | merge hpq _ ih =>
    refine Merge.ordered (hms _ (by simp)) (hpq.wellFormed hp).exact (ih ?_ hp hord)
    exact fun m hm => hms m (List.mem_append_left _ hm)

theorem onward (h : Rewrites ms p q) (hp : p.WellFormed) {l : List InstrId} (hon : p.Onward l) :
    q.Onward l := by
  induction h with
  | refl p => exact hon
  | change hpq hc ih =>
    cases hc with
    | erase i => exact (ih hp hon).detach (hpq.wellFormed hp).toArranged i
    | constant c => exact (ih hp hon).congr fun _ => rfl
    | substitute old c => exact (ih hp hon).congr (Program.sameButOperands_redirect _ old _).next?
  | merge hpq _ ih => exact (ih hp hon).congr (Program.sameButOperands_merge _ _ _).next?

/-- An instruction that was once put into a block never becomes loose again. -/
theorem place_ne_detached (h : Rewrites ms p q) {i : InstrId}
    (hi : (p.instr i).place ≠ .detached) : (q.instr i).place ≠ .detached := by
  induction h with
  | refl p => exact hi
  | change hpq hc ih =>
    cases hc with
    | erase j =>
      rw [Program.instr_detach]
      split
      · exact fun hplace => by cases hplace
      · exact ih hi
    | constant c => exact ih hi
    | substitute old c =>
      rw [(Program.sameButOperands_redirect _ old _).place]
      exact ih hi
  | merge hpq _ ih =>
    rw [Merge.after, (Program.sameButOperands_merge _ _ _).place]
    exact ih hi

end Rewrites

end Midend
