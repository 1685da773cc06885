import Midend.Proofs.Program.Obtainable

/-!
# Instructions in their blocks

An instruction is put into a block once and gets a number there.  It leaves the block when it is erased,
and keeps its number and its links.  Between insertions and erasures in any order, by hand or by the
optimizer and with failing calls among them, the links of a block lead through its instructions both ways,
they are as many as the block says and the ones that say they are there, and no number is given twice within
a function.

What is said about erased instructions is about the past: a program does not tell which block an erased
instruction was in.  So the invariant speaks of a record of all blocks that instructions were put into.
Operations extend the record and contradict it nowhere.

## Main definitions

* `Program.WellLinked`: the links of a program lead through its lists, and agree with the places.
* `Program.Tracked`: a record of the blocks that instructions were put into.
* `Workbench.Puts`: in the course of some commands, an instruction is in a block.

## Main results

* `Program.Arranged.wellLinked`: an arranged program is well linked.
* `Program.Continues.stable`: the primitive operations continue a record.
* `Workbench.tracked_run`, `Workbench.tracked_runAll`: so do commands, one and many.
* `runAll_wellLinked`: what can be built on an empty program is well linked, and the numbers of
  instructions are positive, distinct and final.
-/

namespace Midend

namespace Program

variable {p q : Program}

/-- The links of the blocks lead through their lists both ways, and the lists agree with the places of
instructions.  The lists are finite, and the walks end: more steps than there are instructions find nothing
more. -/
structure WellLinked (p : Program) : Prop where
  /-- The way on from the head leads through the list. -/
  forth : ∀ b n, (p.block b).instrs.length ≤ n →
    trail p.next? n (p.block b).head = (p.block b).instrs
  /-- The list ends with the tail. -/
  last : ∀ b, (p.block b).instrs.getLast? = (p.block b).tail
  /-- The way back from the tail is the exact reverse. -/
  back : ∀ b n, (p.block b).instrs.length ≤ n →
    trail p.prev? n (p.block b).tail = (p.block b).instrs.reverse
  /-- The block knows how many there are. -/
  count : ∀ b, (p.block b).size = (p.block b).instrs.length
  /-- No instruction is met twice. -/
  nodup : ∀ b, (p.block b).instrs.Nodup
  /-- The instructions of a block are those that say they are there, and they are not erased. -/
  parent : ∀ b i, i ∈ (p.block b).instrs ↔
    (p.instr i).place.block? = some b ∧ (p.instr i).isErased = false

/-- **An arranged program is well linked.** -/
theorem Arranged.wellLinked (h : p.Arranged) : p.WellLinked where
  forth b n hn := by
    rw [h.head]
    exact (h.threaded b).trail_next hn
  last b := (h.tail b).symm
  back b n hn := by
    rw [h.tail]
    exact (h.threaded b).trail_prev hn
  count := h.size
  nodup := h.nodup
  parent b i := by
    rw [h.listed, Instr.isErased]
    cases (p.instr i).place with
    | detached => simp [Place.block?]
    | erased => simp [Place.block?]
    | inBlock c => simp [Place.block?, Place.isErased]

/-! ### A record of what was put where -/

/-- `owner` is a record of the blocks that instructions were put into.  It tells more than the places:
an erased instruction may have been in a block or not. -/
structure Tracked (owner : InstrId → Option BlockRef) (p : Program) : Prop extends p.Arranged where
  /-- A loose instruction was never put into a block. -/
  unowned : ∀ i, (p.instr i).place = .detached → owner i = none
  /-- An instruction is in no other block than the one it was put into. -/
  placed : ∀ i b, (p.instr i).place = .inBlock b → owner i = some b
  /-- Instructions were put into blocks that are there. -/
  there : ∀ i b, owner i = some b → p.HasBlock b
  /-- They were given numbers from 1 on. -/
  positive : ∀ i b, owner i = some b → 0 < (p.instr i).id
  /-- The function knows the last number it gave. -/
  bounded : ∀ i b, owner i = some b → (p.instr i).id ≤ (p.func b.func).lastId
  /-- No number was given twice within a function. -/
  distinct : ∀ i j b c, owner i = some b → owner j = some c → b.func = c.func →
    (p.instr i).id = (p.instr j).id → i = j

theorem tracked_empty (name : String) : (Program.empty name).Tracked fun _ => none := by
  have hnone : ∀ {b : BlockRef}, none ≠ some b := fun {b} => (Option.some_ne_none b).symm
  refine ⟨.of_empty rfl rfl rfl, fun _ _ => rfl, fun i b hi => ?_, fun _ _ hi => absurd hi hnone,
    fun _ _ hi => absurd hi hnone, fun _ _ hi => absurd hi hnone, fun _ _ _ _ hi => absurd hi hnone⟩
  have hinstr : (Program.empty name).instr i = default := Table.get_empty i
  rw [hinstr] at hi
  cases hi

namespace Tracked

variable {owner : InstrId → Option BlockRef}

/-- A change of no places, that takes away no block and no number. -/
theorem congr (h : p.Tracked owner) (harranged : q.Arranged)
    (hplace : ∀ i, (q.instr i).place = (p.instr i).place)
    (hid : ∀ i, (p.instr i).place ≠ .detached → (q.instr i).id = (p.instr i).id)
    (hfunc : ∀ f, (p.func f).blocks.size ≤ (q.func f).blocks.size ∧
      (p.func f).lastId ≤ (q.func f).lastId) : q.Tracked owner := by
  have hid' : ∀ i b, owner i = some b → (q.instr i).id = (p.instr i).id := by
    intro i b hi
    refine hid i fun hloose => ?_
    rw [h.unowned i hloose] at hi
    cases hi
  refine ⟨harranged, fun i hi => ?_, fun i b hi => ?_, fun i b hi => ?_, fun i b hi => ?_, fun i b hi => ?_,
    fun i j b c hi hj hf heq => ?_⟩
  · rw [hplace] at hi
    exact h.unowned i hi
  · rw [hplace] at hi
    exact h.placed i b hi
  · exact Nat.lt_of_lt_of_le (h.there i b hi) (hfunc b.func).1
  · rw [hid' i b hi]
    exact h.positive i b hi
  · rw [hid' i b hi]
    exact Nat.le_trans (h.bounded i b hi) (hfunc b.func).2
  · rw [hid' i b hi, hid' j c hj] at heq
    exact h.distinct i j b c hi hj hf heq

/-- A loose instruction may be put into a block.  Its number is the next one, larger than all that were
given in the function. -/
theorem attach (h : p.Tracked owner) {b : BlockRef} (hb : p.HasBlock b) {i : InstrId}
    (hq : p.Attaches b i q) (harranged : q.Arranged) :
    q.Tracked fun j => if i = j then some b else owner j := by
  have hself : q.instr i = { p.instr i with id := (p.func b.func).lastId + 1, place := .inBlock b } := by
    rw [hq.instr, if_pos rfl]
  have hother : ∀ {j}, i ≠ j → q.instr j = p.instr j := by
    intro j hij
    rw [hq.instr, if_neg hij]
  have hlast : ∀ f, (q.func f).lastId =
      if b.func = f then (p.func f).lastId + 1 else (p.func f).lastId := by
    intro f
    obtain ⟨blocks, -, heq⟩ := hq.func f
    rw [heq]
  -- The new number is none of the old ones.
  have hnew : ∀ j c, owner j = some c → b.func = c.func →
      (p.func b.func).lastId + 1 ≠ (p.instr j).id := by
    intro j c hj hf heq
    have hle := h.bounded j c hj
    rw [← hf] at hle
    omega
  -- What is on record is new, or was on record before.
  have hcases : ∀ {j c}, (if i = j then some b else owner j) = some c →
      i = j ∧ b = c ∨ i ≠ j ∧ owner j = some c := by
    intro j c hj
    by_cases hij : i = j
    · rw [if_pos hij] at hj
      exact .inl ⟨hij, Option.some.inj hj⟩
    · rw [if_neg hij] at hj
      exact .inr ⟨hij, hj⟩
  refine ⟨harranged, fun j hj => ?_, fun j c hj => ?_, fun j c hj => ?_, fun j c hj => ?_, fun j c hj => ?_,
    fun j k c d hj hk hf heq => ?_⟩
  · by_cases hij : i = j
    · subst hij
      rw [hself] at hj
      cases hj
    · rw [hother hij] at hj
      rw [if_neg hij]
      exact h.unowned j hj
  · by_cases hij : i = j
    · subst hij
      rw [hself] at hj
      rw [if_pos rfl, Place.inBlock.inj hj]
    · rw [hother hij] at hj
      rw [if_neg hij]
      exact h.placed j c hj
  · rcases hcases hj with ⟨-, rfl⟩ | ⟨-, hj⟩
    · exact hq.hasBlock.mpr hb
    · exact hq.hasBlock.mpr (h.there j c hj)
  · rcases hcases hj with ⟨rfl, -⟩ | ⟨hij, hj⟩
    · rw [hself]
      exact Nat.succ_pos _
    · rw [hother hij]
      exact h.positive j c hj
  · rcases hcases hj with ⟨rfl, rfl⟩ | ⟨hij, hj⟩
    · rw [hself, hlast, if_pos rfl]
    · rw [hother hij]
      refine Nat.le_trans (h.bounded j c hj) ?_
      rw [hlast]
      split
      · exact Nat.le_succ _
      · exact Nat.le_refl _
  · rcases hcases hj with ⟨rfl, rfl⟩ | ⟨hij, hj⟩
    · rcases hcases hk with ⟨hik, -⟩ | ⟨hik, hk⟩
      · exact hik
      · rw [hself, hother hik] at heq
        exact absurd heq (hnew k d hk hf)
    · rcases hcases hk with ⟨rfl, rfl⟩ | ⟨hik, hk⟩
      · rw [hself, hother hij] at heq
        exact absurd heq.symm (hnew j c hj hf.symm)
      · rw [hother hij, hother hik] at heq
        exact h.distinct j k c d hj hk hf heq

/-- Erasing takes an instruction out of its block.  The record, which is about the past, stays. -/
theorem detach (h : p.Tracked owner) {i : InstrId} : (p.detach i).Tracked owner := by
  have hself : ((p.detach i).instr i).place = .erased := by
    rw [instr_detach, if_pos rfl]
  have hother : ∀ {j}, i ≠ j → (p.detach i).instr j = p.instr j := by
    intro j hij
    rw [instr_detach, if_neg hij]
  have hid : ∀ j, ((p.detach i).instr j).id = (p.instr j).id := by
    intro j
    rw [instr_detach]
    split
    · next hij => rw [hij]
    · rfl
  have hlast : ∀ f, ((p.detach i).func f).lastId = (p.func f).lastId := by
    intro f
    obtain ⟨blocks, -, heq⟩ := p.func_detach i f
    rw [heq]
  refine ⟨h.toArranged.detach i, fun j hj => ?_, fun j b hj => ?_, fun j b hj => ?_, fun j b hj => ?_,
    fun j b hj => ?_, fun j k b c hj hk hf heq => ?_⟩
  · by_cases hij : i = j
    · subst hij
      rw [hself] at hj
      cases hj
    · rw [hother hij] at hj
      exact h.unowned j hj
  · by_cases hij : i = j
    · subst hij
      rw [hself] at hj
      cases hj
    · rw [hother hij] at hj
      exact h.placed j b hj
  · exact hasBlock_detach.mpr (h.there j b hj)
  · rw [hid]
    exact h.positive j b hj
  · rw [hid, hlast]
    exact h.bounded j b hj
  · rw [hid, hid] at heq
    exact h.distinct j k b c hj hk hf heq

end Tracked

/-! ### Continuing a record -/

/-- There is a record of `p` that continues the record `owner₀` of an earlier program: blocks stay,
instructions stay where they were put, and keep their numbers. -/
def Continues (owner₀ : InstrId → Option BlockRef) (p₀ p : Program) : Prop :=
  ∃ owner, p.Tracked owner ∧ (∀ b, p₀.HasBlock b → p.HasBlock b) ∧
    ∀ i b, owner₀ i = some b → owner i = some b ∧ (p.instr i).id = (p₀.instr i).id

namespace Continues

variable {owner₀ : InstrId → Option BlockRef} {p₀ : Program}

theorem refl (h : p₀.Tracked owner₀) : Continues owner₀ p₀ p₀ :=
  ⟨owner₀, h, fun _ => id, fun _ _ hi => ⟨hi, rfl⟩⟩

theorem congr (h : Continues owner₀ p₀ p) (harranged : p.Arranged → q.Arranged)
    (hplace : ∀ i, (q.instr i).place = (p.instr i).place)
    (hid : ∀ i, (p.instr i).place ≠ .detached → (q.instr i).id = (p.instr i).id)
    (hfunc : ∀ f, (p.func f).blocks.size ≤ (q.func f).blocks.size ∧
      (p.func f).lastId ≤ (q.func f).lastId) : Continues owner₀ p₀ q := by
  obtain ⟨owner, hp, hblocks, hkept⟩ := h
  refine ⟨owner, hp.congr (harranged hp.toArranged) hplace hid hfunc, fun b hb => ?_, fun i b hi => ?_⟩
  · exact Nat.lt_of_lt_of_le (hblocks b hb) (hfunc b.func).1
  · obtain ⟨howner, hsame⟩ := hkept i b hi
    refine ⟨howner, (hid i fun hloose => ?_).trans hsame⟩
    rw [hp.unowned i hloose] at howner
    cases howner

/-- A change of operands only. -/
theorem of_same (h : Continues owner₀ p₀ p) (hsame : SameButOperands p q) : Continues owner₀ p₀ q := by
  refine h.congr (·.of_same hsame) hsame.place (fun i _ => ?_) fun f => ?_
  · obtain ⟨ops, heq⟩ := hsame.instr i
    rw [heq]
  · rw [func_congr hsame.funcs]
    exact ⟨Nat.le_refl _, Nat.le_refl _⟩

/-- A change of functions that takes away nothing. -/
theorem of_funcs (h : Continues owner₀ p₀ p) (harranged : p.Arranged → q.Arranged)
    (hinstr : ∀ i, q.instr i = p.instr i)
    (hfunc : ∀ f, (p.func f).blocks.size ≤ (q.func f).blocks.size ∧
      (p.func f).lastId ≤ (q.func f).lastId) : Continues owner₀ p₀ q :=
  h.congr harranged (fun i => by rw [hinstr]) (fun i _ => by rw [hinstr]) hfunc

/-- An instruction that was loose is put into a block.  It was in no earlier record. -/
theorem attached (h : Continues owner₀ p₀ p) {b : BlockRef} (hb : p.HasBlock b) {i : InstrId}
    (hi : (p.instr i).place = .detached) (hq : p.Attaches b i q) (harranged : p.Arranged → q.Arranged) :
    Continues owner₀ p₀ q := by
  obtain ⟨owner, hp, hblocks, hkept⟩ := h
  refine ⟨_, hp.attach hb hq (harranged hp.toArranged), fun c hc => hq.hasBlock.mpr (hblocks c hc),
    fun j c hj => ?_⟩
  obtain ⟨howner, hsame⟩ := hkept j c hj
  have hij : i ≠ j := by
    rintro rfl
    rw [hp.unowned i hi] at howner
    cases howner
  rw [if_neg hij, hq.instr, if_neg hij]
  exact ⟨howner, hsame⟩

theorem detach (h : Continues owner₀ p₀ p) (i : InstrId) : Continues owner₀ p₀ (p.detach i) := by
  obtain ⟨owner, hp, hblocks, hkept⟩ := h
  refine ⟨owner, hp.detach, fun b hb => ?_, fun j b hj => ?_⟩
  · exact hasBlock_detach.mpr (hblocks b hb)
  · obtain ⟨howner, hsame⟩ := hkept j b hj
    refine ⟨howner, Eq.trans ?_ hsame⟩
    rw [instr_detach]
    split
    · next hij => rw [hij]
    · rfl

theorem sameButOperands_abandon (p : Program) (v : Value) : SameButOperands p (p.abandon v) := by
  unfold Program.abandon
  cases p.usesOf v with
  | nil => exact ⟨rfl, rfl, fun _ => ⟨_, rfl⟩⟩
  | cons slot slots =>
    refine ⟨rfl, rfl, fun i => ?_⟩
    rw [instr_writeSlot]
    split
    · next huser =>
      subst huser
      exact ⟨_, rfl⟩
    · exact ⟨_, rfl⟩

/-- **All primitive operations continue a record,** whatever is passed to them. -/
theorem stable : Stable False (fun _ => True) (Continues owner₀ p₀) where
  addGlobal _ _ _ h := h.of_funcs (·.of_blocks (fun _ => rfl) rfl (fun _ => rfl) fun _ => id) (fun _ => rfl)
    fun _ => ⟨Nat.le_refl _, Nat.le_refl _⟩
  addFunc p name ret h := by
    refine h.of_funcs (·.addFunc name ret) (fun _ => rfl) fun f => ?_
    rw [func_addFunc]
    split
    · next hf =>
      rw [hf, func_size]
      exact ⟨Nat.le_refl _, Nat.le_refl _⟩
    · exact ⟨Nat.le_refl _, Nat.le_refl _⟩
  addParam p f name ty h := by
    refine h.of_funcs (·.addParam f name ty) (fun _ => rfl) fun f' => ?_
    rw [func_addParam]
    split <;> exact ⟨Nat.le_refl _, Nat.le_refl _⟩
  addBlock p f name h := by
    refine h.of_funcs (·.addBlock f name) (fun _ => rfl) fun f' => ?_
    rw [func_addBlock]
    split
    · rw [Array.size_push]
      exact ⟨Nat.le_succ _, Nat.le_refl _⟩
    · exact ⟨Nat.le_refl _, Nat.le_refl _⟩
  addConst _ _ h := h.of_funcs (·.of_blocks (fun _ => rfl) rfl (fun _ => rfl) fun _ => id) (fun _ => rfl)
    fun _ => ⟨Nat.le_refl _, Nat.le_refl _⟩
  addInstr p x _ hplace h := by
    have hfresh : p.instr p.instrs.size = default := instr_of_size_le (Nat.le_refl _)
    refine h.congr (·.addInstr hplace) (fun i => ?_) (fun i hi => ?_) fun _ => ⟨Nat.le_refl _, Nat.le_refl _⟩
    · rw [instr_addInstr]
      split
      · next hi =>
        rw [hi, hfresh, hplace]
        rfl
      · rfl
    · rw [instr_addInstr, if_neg]
      rintro rfl
      rw [hfresh] at hi
      exact hi rfl
  setElem p i ty h := by
    have hplace : ∀ j, ((p.modifyInstr i fun x => { x with elem := ty }).instr j).place =
        (p.instr j).place := by
      intro j
      obtain ⟨elem, heq⟩ := p.exists_instr_setElem i ty j
      rw [heq]
    refine h.congr (·.of_blocks hplace rfl (fun _ => rfl) fun _ => id) hplace (fun j _ => ?_)
      fun _ => ⟨Nat.le_refl _, Nat.le_refl _⟩
    obtain ⟨elem, heq⟩ := p.exists_instr_setElem i ty j
    rw [heq]
  assign p i vs _ _ h := h.of_same (Intact.sameButOperands_assign p i vs)
  replaceOperand p slot v _ h := h.of_same (sameButOperands_replaceOperand p slot v)
  redirect p old new h := h.of_same (sameButOperands_redirect p old new)
  abandon _ p v h := h.of_same (sameButOperands_abandon p v)
  append p b i hb hi h := h.attached hb hi (attaches_appendTo hb i) (·.appendTo hb hi)
  insertBefore p b i pos hi hpos h := by
    obtain ⟨owner, hp, -, -⟩ := id h
    have hb := hp.there pos b (hp.placed pos b hpos)
    obtain ⟨before, after, hl⟩ := List.append_of_mem ((hp.listed b pos).mpr hpos)
    exact h.attached hb hi (attaches_insertInto hb i pos) (·.insertInto hl hi)
  detach _ i _ _ h := h.detach i
  filled hfalse := hfalse.elim

end Continues

end Program

/-! ### Commands -/

namespace Workbench

variable {w : Workbench} {owner : InstrId → Option BlockRef}

/-- After some of the commands, the instruction is in the block. -/
def Puts (w : Workbench) (cs : List Command) (i : InstrId) (b : BlockRef) : Prop :=
  ∃ before after, cs = before ++ after ∧ ((w.runAll before).program.instr i).place = .inBlock b

/-- **One command continues a record,** whether it fails or not. -/
theorem tracked_run (h : w.program.Tracked owner) (c : Command) :
    ∃ owner', (c.run w).2.program.Tracked owner' ∧ ∀ i b, owner i = some b →
      owner' i = some b ∧ ((c.run w).2.program.instr i).id = (w.program.instr i).id := by
  have hkeeps : Act.Keeps (Has (Program.Continues owner w.program)) c.run :=
    Program.Continues.stable.keeps_run False.elim fun _ _ => trivial
  obtain ⟨owner', hp, -, hkept⟩ := hkeeps.state (Program.Continues.refl h)
  exact ⟨owner', hp, hkept⟩

/-- **Commands continue a record,** and it covers all that happens on the way. -/
theorem tracked_runAll (h : w.program.Tracked owner) (cs : List Command) :
    ∃ owner', (w.runAll cs).program.Tracked owner' ∧
      (∀ i b, owner i = some b →
        owner' i = some b ∧ ((w.runAll cs).program.instr i).id = (w.program.instr i).id) ∧
      ∀ before after, cs = before ++ after → ∀ i b,
        ((w.runAll before).program.instr i).place = .inBlock b → owner' i = some b ∧
          ((w.runAll cs).program.instr i).id = ((w.runAll before).program.instr i).id := by
  induction cs generalizing w owner with
  | nil =>
    refine ⟨owner, h, fun i b hi => ⟨hi, rfl⟩, fun before after heq i b hi => ?_⟩
    obtain ⟨rfl, rfl⟩ := List.append_eq_nil_iff.mp heq.symm
    exact ⟨h.placed i b hi, rfl⟩
  | cons c cs ih =>
    obtain ⟨owner₁, h₁, hkept₁⟩ := tracked_run h c
    obtain ⟨owner₂, h₂, hkept₂, hcourse⟩ := ih h₁
    have hkept : ∀ i b, owner i = some b → owner₂ i = some b ∧
        ((w.runAll (c :: cs)).program.instr i).id = (w.program.instr i).id := by
      intro i b hi
      obtain ⟨hi₁, hid₁⟩ := hkept₁ i b hi
      obtain ⟨hi₂, hid₂⟩ := hkept₂ i b hi₁
      exact ⟨hi₂, hid₂.trans hid₁⟩
    refine ⟨owner₂, h₂, hkept, fun before after heq i b hi => ?_⟩
    cases before with
    | nil => exact hkept i b (h.placed i b hi)
    | cons d before =>
      rw [List.cons_append] at heq
      obtain ⟨rfl, heq'⟩ := List.cons.inj heq
      exact hcourse before after heq' i b hi

end Workbench

/-- **Blocks are well linked, and numbers are final.**  Let any commands be carried out on an empty
program, failing ones included.  Then the way on from the head of each block leads through its
instructions, each once, and ends at its tail, and the way back from there is the exact reverse.  They are as
many as the block says, and are exactly those that are not erased and say they are there.  No instruction is
ever in two blocks.  The numbers of all instructions that were ever in a function, erased ones included, are
positive and distinct, and from the moment an instruction is in a block its number never changes. -/
theorem runAll_wellLinked (name : String) (cs : List Command) :
    let start : Workbench := { program := .empty name }
    let p := (start.runAll cs).program
    p.WellLinked ∧
    (∀ i b c, start.Puts cs i b → start.Puts cs i c → b = c) ∧
    (∀ i b, start.Puts cs i b → 0 < (p.instr i).id) ∧
    (∀ i j b c, start.Puts cs i b → start.Puts cs j c → b.func = c.func →
      (p.instr i).id = (p.instr j).id → i = j) ∧
    ∀ before between after, cs = before ++ between ++ after → ∀ i b,
      ((start.runAll before).program.instr i).place = .inBlock b →
      ((start.runAll (before ++ between)).program.instr i).id =
        ((start.runAll before).program.instr i).id := by
  intro start p
  have hstart : start.program.Tracked fun _ => none := Program.tracked_empty name
  obtain ⟨owner, hend, -, hcourse⟩ := Workbench.tracked_runAll hstart cs
  have hputs : ∀ {i b}, start.Puts cs i b → owner i = some b := by
    rintro i b ⟨before, after, heq, hi⟩
    exact (hcourse before after heq i b hi).1
  refine ⟨hend.wellLinked, fun i b c hb hc => ?_, fun i b hb => ?_,
    fun i j b c hi hj hf heq => ?_, fun before between after heq i b hi => ?_⟩
  · exact Option.some.inj ((hputs hb).symm.trans (hputs hc))
  · exact hend.positive i b (hputs hb)
  · exact hend.distinct i j b c (hputs hi) (hputs hj) hf heq
  · obtain ⟨_, -, -, hcourse'⟩ := Workbench.tracked_runAll hstart (before ++ between)
    exact (hcourse' before between rfl i b hi).2

/-- Three instructions: one is put between the other two, the last one is erased by hand and the first one
by the optimizer.  Three calls fail: two try to put an instruction into a second block, one has no block to
put it into. -/
def shuffling : List Command :=
  [.addFunc "f" .void, .addBlock 0 "entry", .addBlock 0 "exit", .moveTo ⟨0, 0⟩,
    .alloca "p" ⟨.int, 32⟩, .load "x" ⟨.int, 32⟩ (some (.instr 0)), .append ⟨0, 1⟩ (some 0),
    .newInstr { op := .ret } [], .append ⟨0, 7⟩ (some 2), .insertBefore ⟨0, 0⟩ (some 2) (some 1),
    .erase (some 1), .append ⟨0, 1⟩ (some 1), .walk]

/-- The erased load keeps the number 2, which the return that was put before it does not get, and its way
back to the return, which is all that is left. -/
theorem runAll_wellLinked_shuffling :
    let start : Workbench := { program := .empty "m" }
    let p := (start.runAll shuffling).program
    p.WellLinked ∧ (p.block ⟨0, 0⟩).size = 1 ∧ (p.block ⟨0, 0⟩).tail = some 2 ∧
      (p.instr 1).isErased = true ∧ p.prev? 1 = some 2 ∧
      (p.instr 1).id = 2 ∧ 0 < (p.instr 1).id ∧ (p.instr 1).id ≠ (p.instr 2).id := by
  intro start p
  obtain ⟨hlinked, -, hpositive, hdistinct, hfinal⟩ := runAll_wellLinked "m" shuffling
  have hload : ((start.runAll (shuffling.take 6)).program.instr 1).place = .inBlock ⟨0, 0⟩ := by
    decide +kernel
  have hret : ((start.runAll (shuffling.take 10)).program.instr 2).place = .inBlock ⟨0, 0⟩ := by
    decide +kernel
  have hputs : start.Puts shuffling 1 ⟨0, 0⟩ := ⟨_, shuffling.drop 6, rfl, hload⟩
  have hid := hfinal (shuffling.take 6) (shuffling.drop 6) [] rfl 1 ⟨0, 0⟩ hload
  refine ⟨hlinked, by decide +kernel, by decide +kernel, by decide +kernel, by decide +kernel,
    hid.trans (by decide +kernel), hpositive 1 _ hputs, ?_⟩
  intro heq
  exact absurd (hdistinct 1 2 _ _ hputs ⟨_, shuffling.drop 10, rfl, hret⟩ rfl heq) (by decide)

end Midend
