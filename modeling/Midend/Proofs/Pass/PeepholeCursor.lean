import Midend.Proofs.Command.BlockLinks

/-!
# The cursor of the walk

The walk through a block stands on an instruction and takes the next one before it changes anything.  The
simplifications may erase the instruction that was taken, or others further on, and a walk must neither get
lost nor turn back.  It does not, because an erased instruction keeps its link to what came next when it was
erased, and what lies between the two has been erased as well.  Read as a list with gaps, the block stays
the one it was at the start of the walk.

## Main definitions

* `CursorRun`: the steps of a walk, one by one and without a bound.
* `Program.Thinned`: a block as it was, less what has been erased.

## Main results

* `Program.Thinned.robust`: the simplifications only thin a block out.
* `Program.Thinned.step`: one step of the cursor.
* `exists_cursorRun`: the walk takes the steps of a run, and comes to an end.
* `CursorRun.sublist`, `CursorRun.filter_sublist`, `CursorRun.untouched`: where it goes, what it does not
  miss, and what it leaves alone.
* `peephole_traverses`: the walk of each block in the walk of a function.
-/

namespace Midend

/-! ### Runs of the cursor -/

/-- A step of a walk. -/
structure CursorStep where
  /-- The instruction it stands on. -/
  instr : InstrId
  /-- Before the instruction is visited. -/
  before : Session
  /-- Afterwards. -/
  after : Session

/-- From an instruction or from the end of the block, a walk takes these steps, and this comes of it.  The
next instruction is taken before the visit. -/
inductive CursorRun (b : BlockRef) :
    Option InstrId → Session → List CursorStep → Except Fault Bool × Session → Prop where
  /-- The end of the block. -/
  | stop (s : Session) : CursorRun b none s [] (.ok false, s)
  /-- A visit that fails. -/
  | fault {i : InstrId} {s t : Session} {f : Fault} : visitInstr b i s = (.error f, t) →
      CursorRun b (some i) s [⟨i, s, t⟩] (.error f, t)
  /-- A visit, and the walk from the next instruction on. -/
  | step {i : InstrId} {s t : Session} {changed : Bool} {steps : List CursorStep}
      {r : Except Fault Bool × Session} : visitInstr b i s = (.ok changed, t) →
      CursorRun b (s.program.next? i) t steps r →
      CursorRun b (some i) s (⟨i, s, t⟩ :: steps) (r.1.map (changed || ·), r.2)

/-- Erased instructions are left alone. -/
theorem visitInstr_of_isErased {i : InstrId} {s : Session} (b : BlockRef)
    (h : (s.program.instr i).isErased = true) : visitInstr b i s = (.ok false, s) := by
  refine (Act.bind_of_ok (m := Pass.program) (a := s.program) rfl).trans ?_
  rw [if_pos h]
  rfl

namespace Program

variable {complete : Prop} {I : Program → Prop} {p q : Program} {b : BlockRef} {i : InstrId}

theorem Robust.visitInstr_run (h : Robust complete I) {s t : Session} {x : Except Fault Bool}
    (hs : I s.program) (hrun : visitInstr b i s = (x, t)) : I t.program := by
  have hkeeps := (h.keeps_visitInstr b i).state (s := s) hs
  rwa [hrun] at hkeeps

theorem Robust.cursorRun (h : Robust complete I) {cursor : Option InstrId} {s : Session}
    {steps : List CursorStep} {r : Except Fault Bool × Session} (hrun : CursorRun b cursor s steps r) :
    I s.program → I r.2.program := by
  induction hrun with
  | stop s => exact id
  | fault hvisit => exact fun hs => h.visitInstr_run hs hvisit
  | step hvisit _ ih => exact fun hs => ih (h.visitInstr_run hs hvisit)

/-! ### Instructions without operands -/

theorem instr_redirect_of_bare (h : (p.instr i).operands = []) (old new : Value) :
    (p.redirect old new).instr i = p.instr i := by
  obtain ⟨ops, heq, hlength⟩ := exists_instr_redirect p old new i
  rw [h, List.length_nil, List.length_eq_zero_iff] at hlength
  rw [heq, hlength, ← h]

theorem instr_replaceOperand_of_bare (h : (p.instr i).operands = []) (slot : Use) (v : Value) :
    (p.replaceOperand slot v).instr i = p.instr i := by
  rw [instr_replaceOperand]
  split
  · rw [h, List.set_nil, ← h]
  · rfl

theorem instr_abandon_of_bare (h : (p.instr i).operands = []) (v : Value) :
    (p.abandon v).instr i = p.instr i := by
  unfold abandon
  cases p.usesOf v with
  | nil => rfl
  | cons slot slots =>
    change (writeSlot _ slot none).instr i = p.instr i
    rw [instr_writeSlot]
    split
    · next huser =>
      subst huser
      change { p.instr slot.user with operands := (p.instr slot.user).operands.set slot.index none } = _
      rw [h, List.set_nil, ← h]
    · rfl

/-- What is erased is in no block. -/
theorem ne_inBlock_of_isErased (h : (p.instr i).isErased = true) (c : BlockRef) :
    (p.instr i).place ≠ .inBlock c := by
  intro hplace
  rw [Instr.isErased, hplace] at h
  cases h

/-- In an arranged program an instruction is what it is, and has its links. -/
structure Remains (i : InstrId) (x : Instr) (ls : Links) (p : Program) : Prop where
  /-- The program is arranged. -/
  arranged : p.Arranged
  /-- The instruction is that. -/
  instr : p.instr i = x
  /-- Its links are these. -/
  links : p.links.get i = ls

theorem Remains.of_same {x : Instr} {ls : Links} (h : p.Remains i x ls) (hsame : SameButOperands p q)
    (hinstr : q.instr i = p.instr i) : q.Remains i x ls :=
  ⟨h.arranged.of_same hsame, hinstr.trans h.instr, by rw [hsame.links, h.links]⟩

/-- An erased instruction without operands stays as it is, and so do its links. -/
theorem Remains.robust {x : Instr} {ls : Links} (herased : x.isErased = true) (hbare : x.operands = []) :
    Robust False (Remains i x ls) where
  addConst _ _ h := ⟨h.arranged.of_blocks (fun _ => rfl) rfl (fun _ => rfl) fun _ => id, h.instr, h.links⟩
  replaceOperand p slot v _ h := h.of_same (sameButOperands_replaceOperand p slot v)
    (instr_replaceOperand_of_bare (by rw [h.instr, hbare]) slot v)
  redirect p old new h := h.of_same (sameButOperands_redirect p old new)
    (instr_redirect_of_bare (by rw [h.instr, hbare]) old new)
  abandon _ p v h := h.of_same (Continues.sameButOperands_abandon p v)
    (instr_abandon_of_bare (by rw [h.instr, hbare]) v)
  detach p j hj _ h := by
    have hi : (p.instr i).isErased = true := h.instr ▸ herased
    refine ⟨h.arranged.detach j, ?_, ?_⟩
    · rw [instr_detach, if_neg, h.instr]
      rintro rfl
      rw [hi] at hj
      cases hj
    · rw [h.arranged.get_links_detach fun c _ => ne_inBlock_of_isErased hi c, h.links]
  filled hfalse := hfalse.elim

/-! ### Blocks with gaps -/

/-- What is taken as the next instruction of `i`, where `after` came behind it: the first one that is
left, or an erased one behind others that are erased. -/
def Leads (p : Program) (i : InstrId) (after : List InstrId) : Prop :=
  ∃ skipped rest, after = skipped ++ rest ∧ (∀ j ∈ skipped, (p.instr j).isErased = true) ∧
    p.next? i = rest.head?

/-- The block listed the instructions `l`, and some of them have been erased since. -/
structure Thinned (b : BlockRef) (l : List InstrId) (p : Program) : Prop where
  /-- The program is arranged. -/
  arranged : p.Arranged
  /-- No instruction was listed twice. -/
  nodup : l.Nodup
  /-- The others are still listed, in their order. -/
  left : (p.block b).instrs = l.filter fun i => !(p.instr i).isErased
  /-- The erased ones have given up their operands. -/
  bare : ∀ i ∈ l, (p.instr i).isErased = true → (p.instr i).operands = []
  /-- They lead on. -/
  erased : ∀ before i after, l = before ++ i :: after → (p.instr i).isErased = true → p.Leads i after

/-- A block of an intact program has no gaps. -/
theorem Intact.thinned (h : p.Intact) (b : BlockRef) : p.Thinned b (p.block b).instrs := by
  have hlive : ∀ i ∈ (p.block b).instrs, (p.instr i).isErased = false := by
    intro i hi
    rw [Instr.isErased, (h.listed b i).mp hi]
    rfl
  refine ⟨h.toArranged, h.nodup b, ?_, fun i hi herased => ?_, fun before i after hl herased => ?_⟩
  · rw [List.filter_eq_self.mpr]
    intro i hi
    rw [hlive i hi]
    rfl
  · rw [hlive i hi] at herased
    cases herased
  · have hi : i ∈ (p.block b).instrs := by
      rw [hl]
      exact List.mem_append_cons_self
    rw [hlive i hi] at herased
    cases herased

namespace Thinned

variable {l : List InstrId}

/-- An instruction that is left is followed by the next one that is left. -/
theorem next?_eq_find? (h : p.Thinned b l) {before after : List InstrId} (hl : l = before ++ i :: after)
    (hlive : (p.instr i).isErased = false) :
    p.next? i = after.find? fun j => !(p.instr j).isErased := by
  have hlist : (p.block b).instrs = before.filter (fun j => !(p.instr j).isErased) ++
      i :: after.filter fun j => !(p.instr j).isErased := by
    rw [h.left, hl, List.filter_append, List.filter_cons_of_pos (by rw [hlive]; rfl)]
  rw [h.arranged.next?_eq hlist, List.head?_filter]

/-- **Every instruction leads on**, whether it has been erased or not. -/
theorem leads (h : p.Thinned b l) {before after : List InstrId} (hl : l = before ++ i :: after) :
    p.Leads i after := by
  cases herased : (p.instr i).isErased with
  | true => exact h.erased before i after hl herased
  | false =>
    rw [Leads, h.next?_eq_find? hl herased]
    cases hfind : after.find? fun j => !(p.instr j).isErased with
    | none =>
      refine ⟨after, [], (List.append_nil after).symm, fun j hj => ?_, rfl⟩
      simpa using List.find?_eq_none.mp hfind j hj
    | some n =>
      obtain ⟨-, skipped, rest, hafter, hskipped⟩ := List.find?_eq_some_iff_append.mp hfind
      refine ⟨skipped, n :: rest, hafter, fun j hj => ?_, rfl⟩
      simpa using hskipped j hj

/-- A change of operands does not show, if erased instructions get none. -/
theorem of_same (h : p.Thinned b l) (hsame : SameButOperands p q)
    (hbare : ∀ i, (p.instr i).operands = [] → q.instr i = p.instr i) : q.Thinned b l := by
  have herased : ∀ i, (q.instr i).isErased = (p.instr i).isErased := by
    intro i
    rw [Instr.isErased, Instr.isErased, hsame.place]
  refine ⟨h.arranged.of_same hsame, h.nodup, ?_, fun i hi hi' => ?_, fun before i after hl hi => ?_⟩
  · rw [block_congr hsame.funcs, h.left]
    exact List.filter_congr fun i _ => by rw [herased]
  · rw [herased] at hi'
    rw [hbare i (h.bare i hi hi')]
    exact h.bare i hi hi'
  · rw [herased] at hi
    obtain ⟨skipped, rest, hafter, hskipped, hnext⟩ := h.erased before i after hl hi
    exact ⟨skipped, rest, hafter, fun j hj => (herased j).trans (hskipped j hj),
      (hsame.next? i).trans hnext⟩

/-- One more gap.  The instruction leads on to where it led to before. -/
theorem detach (h : p.Thinned b l) (i : InstrId) : (p.detach i).Thinned b l := by
  have hother : ∀ j, j ≠ i → (p.detach i).instr j = p.instr j := fun j hj => by
    rw [instr_detach, if_neg (Ne.symm hj)]
  have hself : (p.detach i).instr i = { p.instr i with operands := [], place := .erased } := by
    rw [instr_detach, if_pos rfl]
  have herased : ∀ j, ((p.detach i).instr j).isErased = (decide (j = i) || (p.instr j).isErased) := by
    intro j
    by_cases hj : j = i
    · rw [hj, hself, decide_eq_true rfl]
      rfl
    · rw [hother j hj, decide_eq_false hj, Bool.false_or]
  refine ⟨h.arranged.detach i, h.nodup, ?_, fun j hj hj' => ?_, fun before j after hl hj => ?_⟩
  · rw [h.arranged.instrs_detach, h.left, List.filter_filter]
    refine List.filter_congr fun j _ => ?_
    rw [herased, Bool.not_or, decide_not]
  · by_cases hji : j = i
    · rw [hji, hself]
    · rw [herased, decide_eq_false hji, Bool.false_or] at hj'
      rw [hother j hji]
      exact h.bare j hj hj'
  · -- The new gap remembers where its instruction led to, and the older ones do not change.
    obtain ⟨skipped, rest, hafter, hskipped, hnext⟩ := h.leads hl
    refine ⟨skipped, rest, hafter, fun k hk => ?_, ?_⟩
    · rw [herased, hskipped k hk, Bool.or_true]
    · by_cases hji : j = i
      · subst hji
        rcases h.arranged.next?_detach j j with heq | ⟨-, heq⟩ <;> exact heq.trans hnext
      · rw [herased, decide_eq_false hji, Bool.false_or] at hj
        rw [next?, h.arranged.get_links_detach fun c _ => ne_inBlock_of_isErased hj c]
        exact hnext

/-- **The simplifications only thin a block out.** -/
theorem robust : Robust False (Thinned b l) where
  addConst _ _ h := ⟨h.arranged.of_blocks (fun _ => rfl) rfl (fun _ => rfl) fun _ => id, h.nodup, h.left,
    h.bare, h.erased⟩
  replaceOperand p slot v _ h := h.of_same (sameButOperands_replaceOperand p slot v)
    fun _ hbare => instr_replaceOperand_of_bare hbare slot v
  redirect p old new h := h.of_same (sameButOperands_redirect p old new)
    fun _ hbare => instr_redirect_of_bare hbare old new
  abandon _ p v h := h.of_same (Continues.sameButOperands_abandon p v)
    fun _ hbare => instr_abandon_of_bare hbare v
  detach _ i _ _ h := h.detach i
  filled hfalse := hfalse.elim

end Thinned

end Program

/-! ### Where the cursor goes -/

/-- **One step**: the cursor moves over erased instructions only, and the visit thins the block out. -/
theorem Program.Thinned.step {b : BlockRef} {l passed after : List InstrId} {i : InstrId}
    {s t : Session} {x : Except Fault Bool} (h : s.program.Thinned b l) (hl : l = passed ++ i :: after)
    (hvisit : visitInstr b i s = (x, t)) :
    ∃ skipped rest, after = skipped ++ rest ∧ (∀ j ∈ skipped, (s.program.instr j).isErased = true) ∧
      s.program.next? i = rest.head? ∧ l = (passed ++ i :: skipped) ++ rest ∧ t.program.Thinned b l := by
  obtain ⟨skipped, rest, rfl, hskipped, hnext⟩ := h.leads hl
  refine ⟨skipped, rest, rfl, hskipped, hnext, ?_, Thinned.robust.visitInstr_run h hvisit⟩
  rw [hl, List.append_assoc, List.cons_append]

namespace CursorRun

variable {b : BlockRef} {l : List InstrId} {cursor : Option InstrId} {s : Session}
  {steps : List CursorStep} {r : Except Fault Bool × Session}

/-- Erased instructions of the block stay as they are. -/
theorem remains (hrun : CursorRun b cursor s steps r) (h : s.program.Thinned b l) {i : InstrId}
    (hi : i ∈ l) (herased : (s.program.instr i).isErased = true) :
    r.2.program.Remains i (s.program.instr i) (s.program.links.get i) :=
  (Program.Remains.robust herased (h.bare i hi herased)).cursorRun hrun ⟨h.arranged, rfl, rfl⟩

/-- **The cursor moves on**: it takes instructions in the order of the block, and none twice. -/
theorem sublist (hrun : CursorRun b cursor s steps r) : ∀ {passed rest : List InstrId},
    l = passed ++ rest → cursor = rest.head? → s.program.Thinned b l →
      (steps.map (·.instr)).Sublist rest := by
  induction hrun with
  | stop s => exact fun _ _ _ => List.nil_sublist _
  | fault hvisit =>
    intro passed rest hl hcursor h
    obtain ⟨after, rfl⟩ := List.head?_eq_some_iff.mp hcursor.symm
    exact (List.nil_sublist after).cons_cons _
  | @step i s t changed steps r hvisit _ ih =>
    intro passed rest hl hcursor h
    obtain ⟨after, rfl⟩ := List.head?_eq_some_iff.mp hcursor.symm
    obtain ⟨skipped, rest, rfl, -, hnext, hl', ht⟩ := h.step hl hvisit
    exact ((ih hl' hnext ht).trans (List.sublist_append_right skipped rest)).cons_cons i

/-- **The cursor misses nothing** that is left when the walk is over. -/
theorem filter_sublist (hrun : CursorRun b cursor s steps r) : ∀ {passed rest : List InstrId},
    l = passed ++ rest → cursor = rest.head? → s.program.Thinned b l → ∀ c, r.1 = .ok c →
      (rest.filter fun i => !(r.2.program.instr i).isErased).Sublist (steps.map (·.instr)) := by
  induction hrun with
  | stop s =>
    intro passed rest hl hcursor h c hc
    obtain rfl := List.head?_eq_none_iff.mp hcursor.symm
    exact .slnil
  | fault hvisit =>
    intro passed rest hl hcursor h c hc
    cases hc
  | @step i s t changed steps r hvisit hrun ih =>
    intro passed rest hl hcursor h c hc
    obtain ⟨after, rfl⟩ := List.head?_eq_some_iff.mp hcursor.symm
    obtain ⟨skipped, rest, rfl, hskipped, hnext, hl', ht⟩ := h.step hl hvisit
    obtain ⟨c', hc'⟩ : ∃ c', r.1 = .ok c' := by
      cases hr : r.1 with
      | error f =>
        rw [hr] at hc
        cases hc
      | ok c' => exact ⟨c', rfl⟩
    have hrest := ih hl' hnext ht c' hc'
    -- What was passed over had been erased, and is not there at the end either.
    have hnone : (skipped.filter fun j => !(r.2.program.instr j).isErased) = [] := by
      refine List.filter_eq_nil_iff.mpr fun j hj => ?_
      have hmem : j ∈ l := by
        rw [hl']
        exact List.mem_append_left rest (List.mem_append_right passed (List.mem_cons_of_mem i hj))
      have hstays := ((CursorRun.step hvisit hrun).remains h hmem (hskipped j hj)).instr
      change r.2.program.instr j = _ at hstays
      rw [hstays, hskipped j hj]
      exact Bool.false_ne_true
    rw [List.map_cons, List.filter_cons, List.filter_append, hnone, List.nil_append]
    split
    · exact hrest.cons_cons i
    · exact hrest.cons i

/-- **Erased instructions that the cursor meets are left alone**, in the step itself and afterwards. -/
theorem untouched (hrun : CursorRun b cursor s steps r) : ∀ {passed rest : List InstrId},
    l = passed ++ rest → cursor = rest.head? → s.program.Thinned b l → ∀ e ∈ steps,
      (e.before.program.instr e.instr).isErased = true → e.after = e.before ∧
        r.2.program.instr e.instr = e.before.program.instr e.instr ∧
        r.2.program.links.get e.instr = e.before.program.links.get e.instr := by
  induction hrun with
  | stop s =>
    intro passed rest hl hcursor h e he
    cases he
  | fault hvisit =>
    intro passed rest hl hcursor h e he herased
    obtain rfl := List.mem_singleton.mp he
    rw [visitInstr_of_isErased b herased] at hvisit
    cases hvisit
  | @step i s t changed steps r hvisit hrun ih =>
    intro passed rest hl hcursor h e he herased
    obtain ⟨after, rfl⟩ := List.head?_eq_some_iff.mp hcursor.symm
    rcases List.mem_cons.mp he with rfl | he
    · have hi : i ∈ l := by
        rw [hl]
        exact List.mem_append_cons_self
      have hremains := (CursorRun.step hvisit hrun).remains h hi herased
      refine ⟨?_, hremains.instr, hremains.links⟩
      rw [visitInstr_of_isErased b herased] at hvisit
      exact (Prod.mk.inj hvisit).2.symm
    · obtain ⟨skipped, rest, rfl, -, hnext, hl', ht⟩ := h.step hl hvisit
      exact ih hl' hnext ht e he herased

end CursorRun

/-! ### The walk -/

/-- A part of a walk that is followed by another one. -/
theorem Pass.bind_or_run {m : Pass Bool} {t : Session} (changed : Bool) :
    (do let more ← m; return changed || more : Pass Bool) t = ((m t).1.map (changed || ·), (m t).2) := by
  cases hm : m t with
  | mk x u =>
    cases x with
    | error f => exact Act.bind_of_error hm
    | ok more => exact Act.bind_of_ok hm

/-- **The walk comes to an end**: it may take as many steps as there are instructions left, and so it takes
the steps of a run. -/
theorem exists_cursorRun {b : BlockRef} {l : List InstrId} (fuel : Nat) :
    ∀ {s : Session} {passed rest : List InstrId}, l = passed ++ rest → s.program.Thinned b l →
      rest.length ≤ fuel → ∃ steps, CursorRun b rest.head? s steps (walkFrom b fuel rest.head? s) := by
  induction fuel with
  | zero =>
    intro s passed rest hl h hfuel
    obtain rfl := List.length_eq_zero_iff.mp (Nat.le_zero.mp hfuel)
    exact ⟨[], .stop s⟩
  | succ fuel ih =>
    intro s passed rest hl h hfuel
    cases rest with
    | nil => exact ⟨[], .stop s⟩
    | cons i after =>
      have hrun : walkFrom b (fuel + 1) (some i) s = (do
          let changed ← visitInstr b i
          let more ← walkFrom b fuel (s.program.next? i)
          return changed || more : Pass Bool) s :=
        Act.bind_of_ok (m := Pass.program) (a := s.program) rfl
      rw [List.head?_cons, hrun]
      cases hvisit : visitInstr b i s with
      | mk x t =>
        cases x with
        | error f =>
          rw [Act.bind_of_error hvisit]
          exact ⟨_, .fault hvisit⟩
        | ok changed =>
          obtain ⟨skipped, rest, rfl, -, hnext, hl', ht⟩ := h.step hl hvisit
          have hlength : rest.length ≤ fuel := by
            rw [List.length_cons, List.length_append] at hfuel
            omega
          obtain ⟨steps, hsteps⟩ := ih hl' ht hlength
          rw [← hnext] at hsteps
          rw [Act.bind_of_ok hvisit, Pass.bind_or_run]
          exact ⟨⟨i, s, t⟩ :: steps, .step hvisit hsteps⟩

/-- A walk through a list is the walk through its first part, followed by that through the rest. -/
theorem Pass.anyOf_append {α : Type} {m : α → Pass Bool} {after : List α} {u : Session}
    (before : List α) : ∀ {s : Session} {changed : Bool}, Pass.anyOf m before s = (.ok changed, u) →
      Pass.anyOf m (before ++ after) s =
        ((Pass.anyOf m after u).1.map (changed || ·), (Pass.anyOf m after u).2) := by
  induction before with
  | nil =>
    rintro s changed ⟨⟩
    rw [List.nil_append]
    rcases Pass.anyOf m after u with ⟨_ | more, t⟩ <;> rfl
  | cons a before ih =>
    intro s changed h
    rw [Pass.anyOf] at h
    rw [List.cons_append, Pass.anyOf]
    rcases ha : m a s with ⟨f | first, t⟩
    · rw [Act.bind_of_error ha] at h
      cases h
    · rw [Act.bind_of_ok ha, Pass.bind_or_run] at h
      rcases hbefore : Pass.anyOf m before t with ⟨f | others, v⟩
      · rw [hbefore] at h
        cases h
      · rw [hbefore] at h
        obtain ⟨hchanged, rfl⟩ := Prod.mk.inj h
        obtain rfl : (first || others) = changed := Except.ok.inj hchanged
        rw [Act.bind_of_ok ha, Pass.bind_or_run, ih hbefore]
        rcases Pass.anyOf m after v with ⟨f | more, w⟩
        · rfl
        · exact congrArg (fun c => (Except.ok c, w)) (Bool.or_assoc first others more).symm

/-- **The walk of a block takes instructions in the order that the block has at its start**, from its head
on, and ends.  It misses none that is left when it is over, whatever was erased in the meantime, and erased
instructions that it meets stay as they are, with their links. -/
theorem peephole_traverses {s u : Session} (hs : s.program.Obtained) {f : FuncId} {b : BlockRef}
    {before after : List BlockRef} {changed : Bool} (hb : s.program.blockRefs f = before ++ b :: after)
    (hu : Pass.anyOf walkBlock before s = (.ok changed, u)) :
    peephole f s = ((Pass.anyOf walkBlock (b :: after) u).1.map (changed || ·),
        (Pass.anyOf walkBlock (b :: after) u).2) ∧
      u.program.chain b = (u.program.block b).instrs ∧ (u.program.block b).instrs.Nodup ∧
      ∃ steps, CursorRun b (u.program.block b).head
          (Pass.visit (.block (u.program.block b).name) u).2 steps (walkBlock b u) ∧
        (steps.map (·.instr)).Sublist (u.program.block b).instrs ∧
        (∀ c, (walkBlock b u).1 = .ok c → ∀ i ∈ (u.program.block b).instrs,
          ((walkBlock b u).2.program.instr i).isErased = false → i ∈ steps.map (·.instr)) ∧
        ∀ e ∈ steps, (e.before.program.instr e.instr).isErased = true →
          e.after = e.before ∧
            (walkBlock b u).2.program.instr e.instr = e.before.program.instr e.instr ∧
            (walkBlock b u).2.program.links.get e.instr = e.before.program.links.get e.instr := by
  have hintact : u.program.Intact := by
    have hkeeps := (Pass.keeps_anyOf Program.Intact.stable.robust.keeps_walkBlock before).state hs.intact
    rwa [hu] at hkeeps
  have hthinned := hintact.thinned b
  have hwalk : walkBlock b u = walkFrom b (u.program.block b).size (u.program.block b).head
      (Pass.visit (.block (u.program.block b).name) u).2 :=
    (Act.bind_of_ok (m := Pass.program) (a := u.program) rfl).trans
      (Act.bind_of_ok (m := Pass.visit _) (a := ()) rfl)
  rw [hintact.size, hintact.head] at hwalk
  obtain ⟨steps, hrun⟩ := exists_cursorRun (s := (Pass.visit (.block (u.program.block b).name) u).2)
    (u.program.block b).instrs.length (List.nil_append _).symm hthinned (Nat.le_refl _)
  rw [← hwalk] at hrun
  refine ⟨?_, hintact.chain_eq b, hthinned.nodup, steps, hintact.head b ▸ hrun, hrun.sublist (List.nil_append _).symm rfl hthinned,
    fun c hc i hi hlive => ?_, hrun.untouched (List.nil_append _).symm rfl hthinned⟩
  · refine (Act.bind_of_ok (m := Pass.program) (a := s.program) rfl).trans ?_
    rw [hb]
    exact Pass.anyOf_append before hu
  · refine (hrun.filter_sublist (List.nil_append _).symm rfl hthinned c hc).subset ?_
    rw [List.mem_filter, hlive]
    exact ⟨hi, rfl⟩

/-- A text in which visits erase instructions further on: that of `%i` erases `%t`, and that of `%j`
erases `%u`, which is taken as the next instruction by then. -/
def gapped : ByteArray :=
  ("func @f(%x: i64, %y: i64) : i64 \x7b\nL:\n    %i = add i64 %a, %b\n    %j = mul i64 %c, %d\n" ++
    "    %t = sub i64 %x, %y\n    %u = sub i64 %y, %x\n    %k = add i64 %i, %j\n    ret i64 %k\nM:\n" ++
    "    %a = add i64 %x, %y\n    %b = add i64 %t, %y\n    %c = mul i64 %x, %y\n    %d = mul i64 %u, %y\n" ++
    "    br L\n\x7d\n").toUTF8

theorem peephole_traverses_gapped : ∃ p, Program.parse "m" gapped = .ok p ∧
    let s : Session := { program := p }
    let r := walkBlock ⟨0, 0⟩ s
    (p.block ⟨0, 0⟩).instrs = [0, 1, 2, 3, 4, 5] ∧
      (visitInstr ⟨0, 0⟩ 0 s).2.program.next? 1 = some 3 ∧
      (∀ i ∈ [0, 1, 2, 3, 4, 5], (r.2.program.instr i).isErased = decide (i = 2 ∨ i = 3)) ∧
      ∃ steps, CursorRun ⟨0, 0⟩ (some 0) (Pass.visit (.block "L") s).2 steps r ∧
        (steps.map (·.instr)).Sublist [0, 1, 2, 3, 4, 5] ∧
        (∀ i ∈ [0, 1, 4, 5], i ∈ steps.map (·.instr)) ∧
        ∀ e ∈ steps, (e.before.program.instr e.instr).isErased = true → e.after = e.before := by
  obtain ⟨p, hp, hcheck⟩ : ∃ p, Program.parse "m" gapped = .ok p ∧
      (let s : Session := { program := p }
        let r := walkBlock ⟨0, 0⟩ s
        p.blockRefs 0 == [⟨0, 0⟩, ⟨0, 1⟩] && (p.block ⟨0, 0⟩).name == "L" &&
          (p.block ⟨0, 0⟩).instrs == [0, 1, 2, 3, 4, 5] && (p.block ⟨0, 0⟩).head == some 0 &&
          (visitInstr ⟨0, 0⟩ 0 s).2.program.next? 1 == some 3 && r.1.toOption == some true &&
          [0, 1, 2, 3, 4, 5].all fun i => (r.2.program.instr i).isErased == decide (i = 2 ∨ i = 3)) =
        true :=
    Program.exists_of_parse (by decide +kernel)
  simp only [Bool.and_eq_true, beq_iff_eq, List.all_eq_true] at hcheck
  obtain ⟨⟨⟨⟨⟨⟨hblocks, hname⟩, hinstrs⟩, hhead⟩, hnext⟩, hok⟩, herased⟩ := hcheck
  have hb : p.blockRefs 0 = [] ++ ⟨0, 0⟩ :: [⟨0, 1⟩] := hblocks
  have hu : Pass.anyOf walkBlock [] { program := p } = (.ok false, { program := p }) := rfl
  obtain ⟨-, -, -, steps, hrun, hsublist, hmem, huntouched⟩ := peephole_traverses (.parse hp) hb hu
  rw [hinstrs] at hsublist hmem
  rw [hname, hhead] at hrun
  refine ⟨p, hp, hinstrs, hnext, herased, steps, hrun, hsublist, fun i hi => ?_,
    fun e he h => (huntouched e he h).1⟩
  have hleft : ∀ i ∈ [0, 1, 4, 5], i ∈ [0, 1, 2, 3, 4, 5] ∧ decide (i = 2 ∨ i = 3) = false := by decide
  exact hmem true (Source.eq_ok_of_toOption hok) i (hleft i hi).1
    ((herased i (hleft i hi).1).trans (hleft i hi).2)

end Midend
