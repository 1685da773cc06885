import Midend.Proofs.Command.Invariants
import Midend.Proofs.Program.Verifier
import Midend.Proofs.Source.ResolvedPrograms

/-!
# Programs that can be built

A program is read from a text or built from nothing, and then anything can be done to it, by hand or by
the optimizer, with calls that fail in between.  Not all is well in such a program: a slot may be empty,
and a use may be missing in a list.  But two things can be relied on.  The program is arranged, and what a
use-list says is true.

The verifier does not look at all of this: a list may name a slot of another function that the other
function has no reason to look for.  What it does look at is whether the operands of the listed
instructions are there, and whether their uses are recorded.

## Main definitions

* `Program.Obtained`: the programs that can be built.
* `Program.Intact`: what can be relied on.
* `Program.Listed`: an instruction is in some block.
* `Program.Sound`: what can be relied on if the verifier has nothing to say.

## Main results

* `Program.Intact.stable`: the primitive operations keep a program intact.
* `Program.Obtained.intact`: the programs that can be built are intact.
* `Program.Obtained.sound`: if the verifier has nothing to say, they are sound.
-/

namespace Midend

namespace Program

/-- The programs that can be built: what is read from a text, the empty program, and what commands make of
these, whether they fail or not. -/
inductive Obtained : Program → Prop where
  /-- The empty program. -/
  | empty (name : String) : Obtained (.empty name)
  /-- The program of an accepted text. -/
  | parse {name : String} {src : ByteArray} {p : Program} : Program.parse name src = .ok p → Obtained p
  /-- What a command leaves. -/
  | command (c : Command) {w : Workbench} : Obtained w.program → Obtained (c.run w).2.program

/-- The program is arranged, and use-lists say nothing wrong. -/
structure Intact (p : Program) : Prop extends p.Arranged where
  /-- A listed use is one, and is listed once. -/
  uses : p.UsesUpTo (· ≤ ·)

variable {p q : Program}

theorem Coherent.intact (h : p.Coherent) : p.Intact where
  toArranged := h.toArranged
  uses v slot := Nat.le_of_eq (h.exact v slot)

/-! ### Intact programs stay intact -/

namespace Intact

/-- A change of operands only. -/
theorem of_same (h : p.Intact) (hsame : SameButOperands p q) (huses : q.UsesUpTo (· ≤ ·)) : q.Intact :=
  ⟨h.toArranged.of_same hsame, huses⟩

theorem addInstr (h : p.Intact) {x : Instr} (hops : x.operands = []) (hplace : x.place = .detached) :
    (p.addInstr x).2.Intact := by
  refine ⟨h.toArranged.addInstr hplace, h.uses.congr (fun j => ?_) fun _ => rfl⟩
  rw [instr_addInstr]
  split
  · next hj =>
    rw [hj, instr_of_size_le (Nat.le_refl _), hops]
    rfl
  · rfl

theorem sameButOperands_assign (p : Program) (i : InstrId) (vs : List (Option Value)) :
    SameButOperands p ((p.dropOperands i).assignOperands i vs) where
  funcs := by
    rw [assignOperands, funcs_registerFrom]
    exact funcs_dropOperands p i
  links := by
    obtain ⟨is, us, heq⟩ := p.exists_dropOperands i
    rw [assignOperands, links_registerFrom, heq]
    rfl
  instr j := by
    rw [instr_assignOperands, instr_dropOperands, instr_dropOperands, if_pos rfl]
    split
    · next hij =>
      subst hij
      exact ⟨_, rfl⟩
    · exact ⟨_, rfl⟩

theorem assign (h : p.Intact) (i : InstrId) (vs : List (Option Value)) :
    ((p.dropOperands i).assignOperands i vs).Intact := by
  refine h.of_same (sameButOperands_assign p i vs) ?_
  refine (h.uses.dropOperands .atMost i).assignOperands .atMost ?_ vs
  rw [instr_dropOperands, if_pos rfl]

theorem usesOf_forget (p : Program) (v w : Value) :
    ({ p with uses := p.uses.set v [] } : Program).usesOf w = if v = w then [] else p.usesOf w :=
  UseLists.get_set p.uses v w []

/-- A use-list may be emptied. -/
theorem forget (h : p.Intact) (v : Value) : ({ p with uses := p.uses.set v [] } : Program).Intact := by
  refine h.of_same ⟨rfl, rfl, fun _ => ⟨_, rfl⟩⟩ fun w u => ?_
  rw [usesOf_forget]
  split
  · exact Nat.zero_le _
  · exact h.uses w u

/-- A slot may be emptied if nobody lists it. -/
theorem writeSlot_none (h : p.Intact) {slot : Use}
    (hslot : slot.index < (p.instr slot.user).operands.length) (hfree : ∀ w, slot ∉ p.usesOf w) :
    (p.writeSlot slot none).Intact := by
  refine h.of_same ⟨rfl, rfl, fun i => ?_⟩ fun w u => ?_
  · rw [instr_writeSlot]
    split
    · next huser =>
      subst huser
      exact ⟨_, rfl⟩
    · exact ⟨_, rfl⟩
  · rw [usesOf_writeSlot, readSlot_writeSlot hslot]
    by_cases hu : slot = u
    · rw [← hu, List.count_eq_zero.mpr (hfree w)]
      exact Nat.zero_le _
    · rw [if_neg hu]
      exact h.uses w u

/-- Of a value that is abandoned, nothing is listed any more; the slot that was emptied was listed by no
other value. -/
theorem abandon (h : p.Intact) (v : Value) : (p.abandon v).Intact := by
  unfold Program.abandon
  cases hslots : p.usesOf v with
  | nil => exact h.forget v
  | cons slot slots =>
    have hheld : p.readSlot slot = some v := by
      apply h.uses.readSlot_of_mem .atMost
      rw [hslots]
      exact List.mem_cons_self
    obtain ⟨hbound, -⟩ := List.getElem?_eq_some_iff.mp (readSlot_eq_some_iff.mp hheld)
    refine (h.forget v).writeSlot_none hbound fun w hw => ?_
    rw [usesOf_forget] at hw
    split at hw
    · cases hw
    · next hne =>
      have hother := h.uses.readSlot_of_mem .atMost hw
      rw [hheld] at hother
      exact hne (Option.some.inj hother)

/-- A loose instruction may be put into a block. -/
theorem attach (h : p.Intact) {b : BlockRef} {i : InstrId} (hq : p.Attaches b i q)
    (harranged : q.Arranged) : q.Intact := by
  refine ⟨harranged, h.uses.congr (fun j => ?_) hq.usesOf⟩
  rw [hq.instr]
  split
  · next hij => rw [← hij]
  · rfl

theorem detach (h : p.Intact) (i : InstrId) : (p.detach i).Intact :=
  ⟨h.toArranged.detach i, h.uses.detach .atMost i⟩

/-- **All primitive operations keep a program intact,** whatever is passed to them. -/
theorem stable : Stable False (fun _ => True) Intact where
  addGlobal _ _ _ h := ⟨h.of_blocks (fun _ => rfl) rfl (fun _ => rfl) fun _ => id, h.uses⟩
  addFunc _ name ret h := ⟨h.addFunc name ret, h.uses⟩
  addParam _ f name ty h := ⟨h.addParam f name ty, h.uses⟩
  addBlock _ f name h := ⟨h.addBlock f name, h.uses⟩
  addConst _ _ h := ⟨h.of_blocks (fun _ => rfl) rfl (fun _ => rfl) fun _ => id, h.uses⟩
  addInstr _ _ hops hplace h := h.addInstr hops hplace
  setElem p i ty h := by
    refine ⟨h.of_blocks (fun j => ?_) rfl (fun _ => rfl) fun _ => id, h.uses.congr (fun j => ?_) fun _ => rfl⟩
    · obtain ⟨elem, heq⟩ := p.exists_instr_setElem i ty j
      rw [heq]
    · obtain ⟨elem, heq⟩ := p.exists_instr_setElem i ty j
      rw [heq]
  assign _ i vs _ _ h := h.assign i vs
  replaceOperand p slot v hslot h :=
    h.of_same (sameButOperands_replaceOperand p slot v) (h.uses.replaceOperand .atMost hslot v)
  redirect p old new h :=
    h.of_same (sameButOperands_redirect p old new) (h.uses.redirect .atMost old new)
  abandon _ _ v h := h.abandon v
  append _ _ i hb hi h := h.attach (attaches_appendTo hb i) (h.appendTo hb hi)
  insertBefore p b i pos hi hpos h := by
    have hmem := (h.listed b pos).mpr hpos
    obtain ⟨before, after, hl⟩ := List.append_of_mem hmem
    exact h.attach (attaches_insertInto (hasBlock_of_mem hmem) i pos) (h.insertInto hl hi)
  detach _ i _ _ h := h.detach i
  filled hfalse := hfalse.elim

end Intact

/-- **The programs that can be built are intact.** -/
theorem Obtained.intact (h : p.Obtained) : p.Intact := by
  induction h with
  | empty name => exact (coherent_of_empty (p := .empty name) rfl rfl rfl rfl).1.intact
  | parse hp => exact (wellFormed_of_parse hp).1.toCoherent.intact
  | command c _ ih =>
    have hkeeps := Intact.stable.keeps_run (c := c) False.elim fun _ _ => trivial
    exact hkeeps.state ih

/-! ### What the verifier adds -/

/-- The instruction is in the list of a block. -/
def Listed (p : Program) (i : InstrId) : Prop := ∃ b, i ∈ (p.block b).instrs

theorem listed_iff {i : InstrId} : p.Listed i ↔ ∃ f < p.funcs.size, i ∈ p.funcInstrs f := by
  constructor
  · rintro ⟨b, hi⟩
    exact ⟨b.func, (hasBlock_of_mem hi).func_lt, mem_funcInstrs.mpr ⟨b.index, hi⟩⟩
  · rintro ⟨f, -, hi⟩
    obtain ⟨k, hi⟩ := mem_funcInstrs.mp hi
    exact ⟨⟨f, k⟩, hi⟩

theorem forall_listed_iff {P : InstrId → Prop} :
    (∀ f < p.funcs.size, ∀ i ∈ p.funcInstrs f, P i) ↔ ∀ i, p.Listed i → P i := by
  constructor
  · intro h i hi
    obtain ⟨f, hf, hi⟩ := listed_iff.mp hi
    exact h f hf i hi
  · intro h f hf i hi
    exact h i (listed_iff.mpr ⟨f, hf, hi⟩)

instance (p : Program) (P : InstrId → Prop) [DecidablePred P] : Decidable (∀ i, p.Listed i → P i) :=
  decidable_of_iff _ forall_listed_iff

/-- Operands of listed instructions are there, and their uses are recorded. -/
structure Sound (p : Program) : Prop extends p.Intact where
  /-- The use of an operand is recorded. -/
  recorded : ∀ i, p.Listed i → ∀ k v, p.readSlot ⟨i, k⟩ = some v → ⟨i, k⟩ ∈ p.usesOf v
  /-- An operand is there, and is listed if it is an instruction. -/
  present : ∀ i, p.Listed i → ∀ v ∈ (p.instr i).operands,
    ∃ w, v = some w ∧ ∀ d, w = .instr d → p.Listed d

section Verified

variable {f : FuncId} {i : InstrId} (h : p.Arranged) (hnone : p.verifyFunc f = [])
  (hi : i ∈ p.funcInstrs f)

include h hnone hi

theorem Arranged.recorded_of_verifyFunc {k : Nat} {v : Value} (hread : p.readSlot ⟨i, k⟩ = some v) :
    ⟨i, k⟩ ∈ p.usesOf v := by
  have hheld : (⟨⟨i, k⟩, v⟩ : Use × Value) ∈ p.heldSlots f :=
    h.mem_heldSlots.mpr ⟨hi, hread⟩
  have hsight : v ∈ p.valuesInSight f := by
    rw [valuesInSight, List.mem_eraseDups]
    exact List.mem_append_right _ (List.mem_map.mpr ⟨_, hheld, rfl⟩)
  rw [verifyFunc, List.append_eq_nil_iff] at hnone
  have hlists := List.flatMap_eq_nil_iff.mp hnone.2 v hsight
  dsimp only [useListViolations] at hlists
  rw [List.append_eq_nil_iff, List.append_eq_nil_iff, List.map_eq_nil_iff, List.map_eq_nil_iff,
    List.filter_eq_nil_iff, List.filter_eq_nil_iff] at hlists
  -- The slot holds the value, so it would be missed if it were not listed.
  have hlisted := hlists.1.2 ⟨i, k⟩ (List.mem_map.mpr ⟨_, List.mem_filter.mpr ⟨hheld, by simp⟩, rfl⟩)
  simp only [Bool.not_eq_true', Bool.not_eq_false, List.contains_iff_mem, List.mem_filter] at hlisted
  exact hlisted.1

theorem Arranged.present_of_verifyFunc {v : Option Value} (hv : v ∈ (p.instr i).operands) :
    ∃ w, v = some w ∧ ∀ d, w = .instr d → d ∈ p.funcInstrs f := by
  obtain ⟨k, hmem⟩ := mem_funcInstrs.mp hi
  have hb : (⟨f, k⟩ : BlockRef) ∈ p.blockRefs f :=
    List.mem_map.mpr ⟨k, List.mem_range.mpr (hasBlock_of_mem hmem), rfl⟩
  obtain ⟨n, hn⟩ := List.getElem?_of_mem hv
  rw [verifyFunc, List.append_eq_nil_iff, List.append_eq_nil_iff] at hnone
  have hslots := List.flatMap_eq_nil_iff.mp (List.flatMap_eq_nil_iff.mp hnone.1.2 _ hb) i
    (h.chain_eq _ ▸ hmem)
  have hslot : p.slotViolations ⟨f, k⟩ i n v = [] :=
    List.flatMap_eq_nil_iff.mp hslots (v, n) (List.mem_zipIdx_iff_getElem?.mpr hn)
  cases v with
  | none => cases hslot
  | some w =>
    refine ⟨w, rfl, ?_⟩
    rintro d rfl
    rw [slotViolations] at hslot
    split at hslot
    · cases hslot
    · next hlisted =>
      simpa only [h.chains_eq, Bool.not_eq_true', Bool.not_eq_false, List.contains_iff_mem] using hlisted

end Verified

/-- **If the verifier has nothing to say, a program that can be built is sound.** -/
theorem Obtained.sound (h : p.Obtained) (hverify : p.verify = []) : p.Sound where
  toIntact := h.intact
  recorded i hi k v hread := by
    obtain ⟨f, hf, hi⟩ := listed_iff.mp hi
    exact h.intact.recorded_of_verifyFunc (verify_eq_nil_iff.mp hverify f hf) hi hread
  present i hi v hv := by
    obtain ⟨f, hf, hi⟩ := listed_iff.mp hi
    obtain ⟨w, rfl, hw⟩ := h.intact.present_of_verifyFunc (verify_eq_nil_iff.mp hverify f hf) hi hv
    exact ⟨w, rfl, fun d hd => listed_iff.mpr ⟨f, hf, hw d hd⟩⟩

/-! ### Sound programs stay sound -/

theorem SameButOperands.listed (h : SameButOperands p q) {i : InstrId} : q.Listed i ↔ p.Listed i := by
  unfold Listed
  simp only [block_congr h.funcs]

/-- What is still listed is another instruction, and is what it was. -/
theorem Intact.of_listed_detach (h : p.Intact) {i j : InstrId} (hj : (p.detach i).Listed j) :
    p.Listed j ∧ j ≠ i ∧ (p.detach i).instr j = p.instr j := by
  obtain ⟨b, hj⟩ := hj
  rw [h.instrs_detach, List.mem_filter, decide_eq_true_eq] at hj
  refine ⟨⟨b, hj.1⟩, hj.2, ?_⟩
  rw [instr_detach, if_neg (Ne.symm hj.2)]

theorem Intact.listed_detach (h : p.Intact) {i j : InstrId} (hj : p.Listed j) (hne : j ≠ i) :
    (p.detach i).Listed j := by
  obtain ⟨b, hj⟩ := hj
  refine ⟨b, ?_⟩
  rw [h.instrs_detach, List.mem_filter]
  exact ⟨hj, decide_eq_true hne⟩

namespace Sound

theorem withConsts (h : p.Sound) (cs : Table Const) : { p with consts := cs }.Sound :=
  ⟨⟨h.of_blocks (fun _ => rfl) rfl (fun _ => rfl) fun _ => id, h.uses⟩, h.recorded, h.present⟩

/-- An instruction that nobody uses is an operand of no listed instruction, so it may be erased. -/
theorem detach (h : p.Sound) {i : InstrId} (hi : p.usesOf (.instr i) = []) : (p.detach i).Sound where
  toIntact := h.toIntact.detach i
  recorded j hj k v hread := by
    obtain ⟨hold, hne, heq⟩ := h.of_listed_detach hj
    rw [readSlot_mk, heq, ← readSlot_mk] at hread
    exact (mem_usesOf_detach hne v).mpr (h.recorded j hold k v hread)
  present j hj v hv := by
    obtain ⟨hold, -, heq⟩ := h.of_listed_detach hj
    rw [heq] at hv
    obtain ⟨w, rfl, hw⟩ := h.present j hold v hv
    refine ⟨w, rfl, ?_⟩
    rintro d rfl
    refine h.listed_detach (hw d rfl) ?_
    rintro rfl
    obtain ⟨k, hread⟩ := exists_readSlot_of_mem hv
    have hused := h.recorded j hold k _ hread
    rw [hi] at hused
    cases hused

/-- Moving all uses is substitution in listed instructions. -/
theorem instr_redirect (h : p.Sound) {i : InstrId} (hi : p.Listed i) (old new : Value) :
    (p.redirect old new).instr i = (p.instr i).substitute old new :=
  instr_redirect_of_mem_iff
    (fun k => ⟨h.uses.readSlot_of_mem .atMost, h.recorded i hi k old⟩) new

/-- A constant may take the place of an instruction. -/
theorem redirect_const (h : p.Sound) (i : InstrId) (c : ConstId) :
    (p.redirect (.instr i) (.const c)).Sound := by
  have hsame := sameButOperands_redirect p (.instr i) (.const c)
  have hne : Value.instr i ≠ .const c := fun heq => by cases heq
  refine ⟨h.toIntact.of_same hsame (h.uses.redirect .atMost _ _), ?_, ?_⟩
  · intro j hj k v hread
    rw [hsame.listed] at hj
    rw [h.uses.readSlot_redirect .atMost hne] at hread
    rw [usesOf_redirect p hne]
    split at hread
    · next hmoved =>
      cases hread
      rw [if_pos rfl]
      exact List.mem_append_right _ hmoved
    · next hkept =>
      have hused := h.recorded j hj k v hread
      split
      · next hv =>
        subst hv
        exact List.mem_append_left _ hused
      · rw [if_neg]
        · exact hused
        · rintro rfl
          exact hkept hused
  · intro j hj v hv
    rw [hsame.listed] at hj
    rw [h.instr_redirect hj, Instr.substitute, List.mem_map] at hv
    obtain ⟨old, hold, rfl⟩ := hv
    unfold substituteIn
    split
    · exact ⟨_, rfl, fun d hd => by cases hd⟩
    · obtain ⟨w, rfl, hw⟩ := h.present j hj old hold
      exact ⟨w, rfl, fun d hd => hsame.listed.mpr (hw d hd)⟩

end Sound

end Program

end Midend
