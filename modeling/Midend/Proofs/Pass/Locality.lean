import Mathlib.Data.List.Nodup
import Midend.Proofs.Command.Invariants
import Midend.Proofs.Pass.ConstProp
import Midend.Proofs.Source.AcceptedPrograms

/-!
# What a pass does to the other functions

The passes work on one function at a time, but the values that they replace may be used elsewhere.  An
instruction is used in its own function only, and in a program that was read from a text so is a
parameter.  The peephole walk and the sweep replace instructions and nothing else, hence they leave all
other functions as they are.  The propagation of constants also replaces addresses, and a global variable
or a constant may be an address in one function and an operand in another.

## Main definitions

* `Program.ParamsLocal`: a parameter is used in one function only.
* `Program.Outside f ρ`: outside the function `f`, all that happens is that `ρ` is applied to operands.
* `Program.Confined`: steps that change nothing outside the function.
* `Program.ExchangesOnly`: `ρ` replaces nothing but values that functions share, by stored constants.
* `FuncPass`: the passes that work on one function.

## Main results

* `Rewrites.paramsLocal`: no pass lets a parameter out of its function.
* `keeps_peephole_confined`, `keeps_sweep_confined`: the walk and the sweep stay in their function.
* `Program.Propagates.exists_outside`: what the propagation does to other functions.
* `funcPass_local`: what each pass does to other functions.
-/

namespace Midend

namespace Program

variable {p q r : Program} {f : FuncId}

/-! ### Parameters stay in their function -/

/-- Instructions that use the same parameter are in the same function. -/
def ParamsLocal (p : Program) : Prop :=
  ∀ a i j b c, (p.instr i).place = .inBlock b → (p.instr j).place = .inBlock c →
    some (.param a) ∈ (p.instr i).operands → some (.param a) ∈ (p.instr j).operands →
    b.func = c.func

/-- New parameters among the operands must come from the same function. -/
theorem ParamsLocal.of_operands (h : p.ParamsLocal)
    (hops : ∀ i b a, (q.instr i).place = .inBlock b → some (.param a) ∈ (q.instr i).operands →
      ∃ j c, (p.instr j).place = .inBlock c ∧ c.func = b.func ∧
        some (.param a) ∈ (p.instr j).operands) : q.ParamsLocal := by
  intro a i j b c hi hj hai haj
  obtain ⟨i', b', hi', hb', hai'⟩ := hops i b a hi hai
  obtain ⟨j', c', hj', hc', haj'⟩ := hops j c a hj haj
  rw [← hb', ← hc']
  exact h a i' j' b' c' hi' hj' hai' haj'

theorem ParamsLocal.detach (h : p.ParamsLocal) (i : InstrId) : (p.detach i).ParamsLocal := by
  apply h.of_operands
  intro j b a hj ha
  rw [instr_detach] at hj ha
  split at hj
  · cases hj
  · next hne =>
    rw [if_neg hne] at ha
    exact ⟨j, b, hj, rfl, ha⟩

theorem ParamsLocal.redirect_const (h : p.ParamsLocal) (hexact : p.UsesExact) (old : Value)
    (c : ConstId) : (p.redirect old (.const c)).ParamsLocal := by
  apply h.of_operands
  intro i b a hi ha
  rw [(sameButOperands_redirect p old (.const c)).place] at hi
  rcases hexact.mem_operands_redirect ha with ha | ⟨heq, -⟩
  · exact ⟨i, b, hi, rfl, ha⟩
  · cases heq

/-- A merge moves a value between instructions of one function. -/
theorem ParamsLocal.merge (h : p.ParamsLocal) (hp : p.WellFormed) {i a b : InstrId} {v : Value}
    (hops : (p.instr i).operands = [some (.instr a), some (.instr b)])
    (hv : some v ∈ (p.instr a).operands) : (p.merge b v).ParamsLocal := by
  obtain ⟨c, hc⟩ := hp.exists_block (i := i) (by simp [hops])
  obtain ⟨ca, hca, hfa⟩ := hp.func_of_mem hc (d := a) (by simp [hops])
  obtain ⟨cb, hcb, hfb⟩ := hp.func_of_mem hc (d := b) (by simp [hops])
  apply h.of_operands
  intro j cj x hj hx
  rw [(sameButOperands_merge p b v).place] at hj
  rcases hp.exact.mem_operands_merge hx with hx | ⟨hxv, huser⟩
  · exact ⟨j, cj, hj, rfl, hx⟩
  · -- The value was an operand of `a`, and `j` is in the function of `b`, which is that of `a`.
    have hfj : cb.func = cj.func := by
      rcases huser with rfl | hmem
      · rw [hcb] at hj
        cases hj
        rfl
      · obtain ⟨cb', hcb', hf⟩ := hp.func_of_mem hj hmem
        rw [hcb] at hcb'
        cases hcb'
        exact hf
    refine ⟨a, ca, hca, ?_, ?_⟩
    · rw [hfa, ← hfb, hfj]
    · rw [hxv]
      exact hv

end Program

/-- **No pass lets a parameter out of its function.** -/
theorem Rewrites.paramsLocal {ms : List Merge} {p q : Program} (h : Rewrites ms p q)
    (hp : p.WellFormed) (hlocal : p.ParamsLocal) : q.ParamsLocal := by
  induction h with
  | refl p => exact hlocal
  | change hpq hc ih =>
    cases hc with
    | erase i => exact (ih hp hlocal).detach i
    | constant c => exact ih hp hlocal
    | substitute old c => exact (ih hp hlocal).redirect_const (hpq.wellFormed hp).exact old c
  | merge hpq hm ih =>
    obtain ⟨i, a, hsib, hhead⟩ := hm
    obtain ⟨hops, -⟩ := operands_of_siblings hsib
    exact (ih hp hlocal).merge (hpq.wellFormed hp) hops (List.mem_of_head? hhead)

/-! ### Outside a function -/

/-- Applies a function to the values in the operand slots. -/
def Instr.mapOperands (ρ : Value → Value) (x : Instr) : Instr :=
  { x with operands := x.operands.map (Option.map ρ) }

theorem mapOperands_id (x : Instr) : x.mapOperands id = x := by
  simp [Instr.mapOperands]

theorem Instr.mapOperands_mapOperands (ρ ρ' : Value → Value) (x : Instr) :
    (x.mapOperands ρ).mapOperands ρ' = x.mapOperands (ρ' ∘ ρ) := by
  simp [mapOperands]

namespace Program

variable {p q r : Program} {f : FuncId} {ρ ρ' : Value → Value}

/-- Outside the function `f`, `q` is `p` with `ρ` applied to the operands: the other functions and their
blocks are the same, and so is all of their instructions but the operands. -/
structure Outside (f : FuncId) (ρ : Value → Value) (p q : Program) : Prop where
  /-- Other functions have the same blocks with the same instructions. -/
  func : ∀ g, g ≠ f → q.func g = p.func g
  /-- Their instructions are the same, with `ρ` applied to the operands. -/
  instr : ∀ i b, (p.instr i).place = .inBlock b → b.func ≠ f →
    q.instr i = (p.instr i).mapOperands ρ
  /-- They are linked as they were. -/
  links : ∀ i b, (p.instr i).place = .inBlock b → b.func ≠ f → q.links.get i = p.links.get i
  /-- The global variables are the same, and constants stay what they are. -/
  widens : Source.Widens p q
  /-- Parameters are the same. -/
  params : q.params = p.params

theorem Outside.refl (f : FuncId) (p : Program) : p.Outside f id p :=
  ⟨fun _ _ => rfl, fun _ _ _ _ => (mapOperands_id _).symm, fun _ _ _ _ => rfl, .refl p, rfl⟩

theorem Outside.place (h : p.Outside f ρ q) {i : InstrId} {b : BlockRef}
    (hi : (p.instr i).place = .inBlock b) (hb : b.func ≠ f) : (q.instr i).place = .inBlock b := by
  rw [h.instr i b hi hb]
  exact hi

theorem Outside.trans (h : p.Outside f ρ q) (h' : q.Outside f ρ' r) :
    p.Outside f (ρ' ∘ ρ) r where
  func g hg := (h'.func g hg).trans (h.func g hg)
  instr i b hi hb := by
    rw [h'.instr i b (h.place hi hb) hb, h.instr i b hi hb, Instr.mapOperands_mapOperands]
  links i b hi hb := (h'.links i b (h.place hi hb) hb).trans (h.links i b hi hb)
  widens := h.widens.trans h'.widens
  params := h'.params.trans h.params

/-- The instruction is in the function, unless it is in no block. -/
def Within (p : Program) (f : FuncId) (i : InstrId) : Prop :=
  ∀ b, (p.instr i).place = .inBlock b → b.func = f

theorem within_of_place {i : InstrId} {b : BlockRef} (hi : (p.instr i).place = .inBlock b)
    (hb : b.func = f) : p.Within f i := by
  intro c hc
  rw [hi] at hc
  cases hc
  exact hb

/-- An instruction of the function is not used in any other one. -/
theorem Coherent.not_mem_of_within (h : p.Coherent) {d i : InstrId} {b : BlockRef}
    (hd : p.Within f d) (hi : (p.instr i).place = .inBlock b) (hb : b.func ≠ f) :
    some (.instr d) ∉ (p.instr i).operands := by
  intro hmem
  obtain ⟨c, hc, hfunc⟩ := h.func_of_mem hi hmem
  exact hb (hfunc.symm.trans (hd c hc))

/-! ### Steps -/

/-- A step that writes neither globals, constants nor parameters. -/
theorem Outside.of_frame {fs : Array Func} {is : Table Instr} {ls : Table Links} {us : UseLists}
    (hframe : q = { p with funcs := fs, instrs := is, links := ls, uses := us })
    (hfunc : ∀ g, g ≠ f → q.func g = p.func g)
    (hinstr : ∀ i b, (p.instr i).place = .inBlock b → b.func ≠ f →
      q.instr i = (p.instr i).mapOperands ρ)
    (hlinks : ∀ i b, (p.instr i).place = .inBlock b → b.func ≠ f → q.links.get i = p.links.get i) :
    p.Outside f ρ q := by
  refine ⟨hfunc, hinstr, hlinks, ?_, ?_⟩ <;> rw [hframe]
  exact ⟨rfl, Nat.le_refl _, fun _ _ => rfl⟩

/-- So does one that changes operands only. -/
theorem SameButOperands.outside (h : SameButOperands p q) {is : Table Instr} {us : UseLists}
    (hframe : q = { p with instrs := is, uses := us })
    (hinstr : ∀ i b, (p.instr i).place = .inBlock b → b.func ≠ f →
      q.instr i = (p.instr i).mapOperands ρ) : p.Outside f ρ q :=
  .of_frame hframe (fun g _ => func_congr h.funcs g) hinstr fun _ _ _ _ => by rw [h.links]

theorem SameButOperands.within (h : SameButOperands p q) {i : InstrId} (hi : p.Within f i) :
    q.Within f i := by
  intro b hb
  rw [h.place] at hb
  exact hi b hb

theorem Arranged.outside_detach (h : p.Arranged) {i : InstrId} (hi : p.Within f i) :
    p.Outside f id (p.detach i) := by
  obtain ⟨fs, is, ls, us, hframe⟩ := p.exists_detach i
  refine .of_frame hframe (fun g hg => h.func_detach_of_ne fun b hplace hb => ?_) (fun j b hj hb => ?_)
    fun j b hj hb => h.get_links_detach fun c hc hj' => ?_
  · exact hg (hb.symm.trans (hi b hplace))
  · have hne : i ≠ j := by
      rintro rfl
      exact hb (hi b hj)
    rw [instr_detach, if_neg hne, mapOperands_id]
  · rw [hj'] at hj
    exact hb (Place.inBlock.inj hj ▸ hi c hc)

theorem outside_push (f : FuncId) (p : Program) (c : Const) :
    p.Outside f id { p with consts := p.consts.push c } where
  func _ _ := rfl
  instr i _ _ _ := (mapOperands_id _).symm
  links _ _ _ _ := rfl
  widens := by
    refine ⟨rfl, ?_, fun d hd => ?_⟩
    · rw [Table.size_push]
      exact Nat.le_succ _
    · rw [Table.get_push, if_neg (Nat.ne_of_lt hd)]
  params := rfl

theorem outside_replaceOperand (slot : Use) (hslot : p.Within f slot.user) (v : Value) :
    p.Outside f id (p.replaceOperand slot v) := by
  obtain ⟨is, us, hframe⟩ := p.exists_replaceOperand slot v
  refine (sameButOperands_replaceOperand p slot v).outside hframe fun i b hi hb => ?_
  have hne : slot.user ≠ i := by
    rintro rfl
    exact hb (hslot b hi)
  rw [instr_replaceOperand, if_neg hne, mapOperands_id]

/-- Moving the uses of a value applies `ρ` outside if `ρ` moves that value wherever it is used, and
leaves all others alone. -/
theorem outside_redirect (hexact : p.UsesExact) {old new : Value}
    (hρ : ∀ i b, (p.instr i).place = .inBlock b → b.func ≠ f → ∀ v, some v ∈ (p.instr i).operands →
      ρ v = if v = old then new else v) : p.Outside f ρ (p.redirect old new) := by
  obtain ⟨is, us, hframe⟩ := p.exists_redirect old new
  refine (sameButOperands_redirect p old new).outside hframe fun i b hi hb => ?_
  have hmap : (p.instr i).operands.map (substituteIn old new) =
      (p.instr i).operands.map (Option.map ρ) := by
    refine List.map_congr_left fun v hv => ?_
    cases v with
    | none => rfl
    | some v =>
      rw [Option.map_some, hρ i b hi hb v hv, substituteIn]
      by_cases hold : v = old
      · simp [hold]
      · simp [hold]
  rw [hexact.instr_redirect, Instr.substitute, Instr.mapOperands, hmap]

/-- A value that is used in the function only. -/
theorem outside_redirect_of_not_mem (hexact : p.UsesExact) {old : Value} (new : Value)
    (hold : ∀ i b, (p.instr i).place = .inBlock b → b.func ≠ f → some old ∉ (p.instr i).operands) :
    p.Outside f id (p.redirect old new) := by
  refine outside_redirect hexact fun i b hi hb v hv => ?_
  rw [if_neg]
  · rfl
  · rintro rfl
    exact hold i b hi hb hv

theorem outside_redirect_instr (h : p.Coherent) {d : InstrId} (hd : p.Within f d) (new : Value) :
    p.Outside f id (p.redirect (.instr d) new) :=
  outside_redirect_of_not_mem h.exact new fun _ _ hi hb => h.not_mem_of_within hd hi hb

end Program

/-- Instructions never change their function. -/
theorem Rewrites.within {ms : List Merge} {p q : Program} (h : Rewrites ms p q) {f : FuncId}
    {i : InstrId} (hi : p.Within f i) : q.Within f i := by
  induction h with
  | refl p => exact hi
  | change _ hc ih =>
    cases hc with
    | erase j =>
      intro b hb
      rw [Program.instr_detach] at hb
      split at hb
      · cases hb
      · exact ih hi b hb
    | constant c => exact ih hi
    | substitute old c => exact (Program.sameButOperands_redirect _ _ _).within (ih hi)
  | merge _ _ ih => exact (Program.sameButOperands_merge _ _ _).within (ih hi)

/-! ### The peephole walk and the sweep -/

namespace Program

variable {p q : Program} {f : FuncId}

/-- Steps from `p` to `q` that leave everything outside the function as it is. -/
structure Confined (f : FuncId) (p q : Program) : Prop where
  /-- The program stays well-formed. -/
  wellFormed : q.WellFormed
  /-- There are steps. -/
  rewrites : ∃ ms, Rewrites ms p q
  /-- Nothing changes outside the function. -/
  outside : p.Outside f id q

namespace Confined

theorem refl (hp : p.WellFormed) : p.Confined f p := ⟨hp, ⟨[], .refl p⟩, .refl f p⟩

theorem step {ms : List Merge} {r : Program} (h : p.Confined f q) (hr : Rewrites ms q r)
    (hout : q.Outside f id r) : p.Confined f r := by
  obtain ⟨ms', hms'⟩ := h.rewrites
  exact ⟨hr.wellFormed h.wellFormed, ⟨_, hms'.trans hr⟩, h.outside.trans hout⟩

theorem detach (h : p.Confined f q) {i : InstrId} (hi : q.Within f i) (hdead : q.IsDead i) :
    p.Confined f (q.detach i) :=
  h.step hdead.rewrites (h.wellFormed.outside_detach hi)

theorem fold (h : p.Confined f q) {i : InstrId} (hi : q.Within f i) (c : Const) :
    p.Confined f (q.fold i c) := by
  have hpush := outside_push f q c
  have hpushed := (h.wellFormed.withConsts (q.consts.push c)).toCoherent
  have hsame := sameButOperands_redirect { q with consts := q.consts.push c } (.instr i)
    (.const q.consts.size)
  have hredirect := outside_redirect_instr hpushed hi (.const q.consts.size)
  exact h.step (q.rewrites_fold i c)
    ((hpush.trans hredirect).trans ((hpushed.toArranged.of_same hsame).outside_detach (hsame.within hi)))

end Confined

end Program

open Program (Confined)

/-- A merge of operands of an instruction of the function happens within the function. -/
theorem SiblingMerge.Fits.outside {m : SiblingMerge} (h : m.Fits) (hp : m.before.WellFormed)
    {f : FuncId} (huser : m.before.Within f m.user) :
    m.before.Outside f id m.outcome ∧ m.before.Within f m.first ∧ m.before.Within f m.second := by
  obtain ⟨hops, -⟩ := operands_of_siblings h.siblings
  obtain ⟨c, hc⟩ := hp.exists_block (i := m.user) (by simp [hops])
  obtain ⟨ca, hca, hfa⟩ := hp.func_of_mem hc (d := m.first) (by simp [hops])
  obtain ⟨cb, hcb, hfb⟩ := hp.func_of_mem hc (d := m.second) (by simp [hops])
  have hfirst := Program.within_of_place hca (hfa.trans (huser c hc))
  have hsecond := Program.within_of_place hcb (hfb.trans (huser c hc))
  have hredirect := Program.outside_redirect_instr hp.toCoherent hsecond m.value
  have hslot := (Program.sameButOperands_redirect _ (.instr m.second) m.value).within hsecond
  have hmerged : m.before.Outside f id m.after :=
    hredirect.trans (Program.outside_replaceOperand ⟨m.second, 0⟩ hslot m.value)
  refine ⟨?_, hfirst, hsecond⟩
  unfold SiblingMerge.outcome
  split
  · have hsame : Program.SameButOperands m.before m.after := Program.sameButOperands_merge _ _ _
    exact hmerged.trans ((hp.of_same hsame).outside_detach (hsame.within hfirst))
  · exact hmerged

section Walk

variable {f : FuncId} {p : Program} {l : List InstrId}

/-- What holds while the walk goes through the instructions `l` of a block of the function. -/
structure Program.Walking (f : FuncId) (l : List InstrId) (p q : Program) : Prop
    extends Confined f p q where
  /-- The way leads on in the block. -/
  onward : q.Onward l
  /-- Its instructions are in the function. -/
  within : ∀ i ∈ l, q.Within f i

theorem Program.Walking.step {ms : List Merge} {q r : Program} (h : p.Walking f l q)
    (hr : Rewrites ms q r) (hconfined : p.Confined f r) : p.Walking f l r :=
  ⟨hconfined, hr.onward h.wellFormed h.onward, fun i hi => hr.within (h.within i hi)⟩

theorem keeps_dce_walking (i : InstrId) (hi : i ∈ l) : Act.Keeps (p.Walking f l) (dce i) := by
  refine .of_succeeds fun q hq => (succeeds_dce i q).mono fun _ r hr => ?_
  rcases hr with ⟨-, rfl⟩ | ⟨-, hdead, rfl⟩
  · exact hq
  · exact hq.step hdead.rewrites (hq.toConfined.detach (hq.within i hi) hdead)

theorem keeps_constFold_walking (i : InstrId) (hi : i ∈ l) :
    Act.Keeps (p.Walking f l) (constFold i) := by
  refine .of_succeeds fun q hq => (succeeds_constFold i q).mono fun _ r hr => ?_
  rcases hr with rfl | ⟨c, -, rfl⟩
  · exact hq
  · exact hq.step (q.rewrites_fold i c) (hq.toConfined.fold (hq.within i hi) c)

theorem keeps_cse_walking (i : InstrId) (hi : i ∈ l) :
    Act.Keeps (p.Walking f l) (cse (some (.instr i))) := by
  refine .of_succeeds fun q hq => (succeeds_cse_at (.instr i) hq.wellFormed).mono fun _ r hr => ?_
  rcases hr with ⟨-, rfl⟩ | ⟨-, m, rfl, hfits, huser, hr⟩
  · exact hq
  · cases huser
    obtain ⟨hout, -, hsecond⟩ := hfits.outside hq.wellFormed (hq.within m.user hi)
    have hmerged := hq.step hfits.rewrites (hq.toConfined.step hfits.rewrites hout)
    rcases hr with rfl | ⟨t, ht, hdead, rfl⟩
    · exact hmerged
    · -- The former operand of the second was in the function of the second.
      have hwithin : m.before.Within f t := by
        obtain ⟨c, hc⟩ := hq.wellFormed.exists_block (List.ne_nil_of_mem ht)
        obtain ⟨d, hd, hfunc⟩ := hq.wellFormed.func_of_mem hc ht
        exact Program.within_of_place hd (hfunc.trans (hsecond c hc))
      exact hmerged.step hdead.rewrites
        (hmerged.toConfined.detach (hfits.rewrites.within hwithin) hdead)

/-- The walk through a block of the function stays in the function. -/
theorem keeps_walkBlock_confined {b : BlockRef} (hb : b.func = f) :
    Act.Keeps (Session.Has (p.Confined f)) (walkBlock b) := by
  intro s hs
  have hwf := Program.Confined.wellFormed hs
  rw [walkBlock, Act.ensures_bind, Pass.ensures_program, Act.ensures_bind, Pass.ensures_visit]
  have hstart : p.Walking f (s.program.block b).instrs s.program := by
    refine ⟨hs, .ofBlock hwf.toCoherent b, fun i hi => ?_⟩
    exact Program.within_of_place ((hwf.listed b i).mp hi) hb
  have hwalk := Pass.keeps_walkFrom (I := p.Walking f (s.program.block b).instrs)
    (C := fun i => i ∈ (s.program.block b).instrs) keeps_dce_walking keeps_constFold_walking
    keeps_cse_walking (fun q hq i hi n hn => (hq.onward i hi n hn).1) b
    (s.program.block b).size (s.program.block b).head
    fun i hi => List.mem_of_head? (hwf.head b ▸ hi)
  refine (hwalk { s with trace := s.trace.push (.block (s.program.block b).name) } hstart).mono ?_ ?_
  · exact fun _ t ht => Program.Walking.toConfined ht
  · exact fun _ t ht => Program.Walking.toConfined ht

/-- **The peephole walk stays in its function.** -/
theorem keeps_peephole_confined (f : FuncId) (p : Program) :
    Act.Keeps (Session.Has (p.Confined f)) (peephole f) := by
  have hblocks : ∀ l : List BlockRef, (∀ b ∈ l, b.func = f) →
      Act.Keeps (Session.Has (p.Confined f)) (Pass.anyOf walkBlock l) := by
    intro l hl
    induction l with
    | nil => exact .pure false
    | cons b l ih =>
      have hb := hl b List.mem_cons_self
      have hrest := ih fun c hc => hl c (List.mem_cons_of_mem b hc)
      exact (keeps_walkBlock_confined hb).bind fun _ => hrest.bind fun _ => .pure _
  intro s hs
  rw [peephole, Act.ensures_bind, Pass.ensures_program]
  exact hblocks _ (fun b hb => (Program.mem_blockRefs.mp hb).1) s hs

/-- Whatever waits in the queue of a sweep is in the function. -/
theorem sweepable_confined (f : FuncId) (p : Program) :
    Program.Sweepable (p.Confined f) fun q i => (q.instr i).place ≠ .detached ∧ q.Within f i where
  detach hq hw hi := hq.detach hw.2 hi
  inBlock _ hw hi := hi.exists_block hw.1
  operands hq hw hi hj := by
    obtain ⟨b, hb⟩ := hi.exists_block hw.1
    obtain ⟨c, hc, hfunc⟩ := hq.wellFormed.func_of_mem hb (Instr.mem_operandInstrs.mp hj)
    refine ⟨?_, Program.within_of_place hc (hfunc.trans (hw.2 b hb))⟩
    rw [hc]
    exact fun heq => by cases heq
  waiting _ hi hw := ⟨hi.rewrites.place_ne_detached hw.1, hi.rewrites.within hw.2⟩

/-- **The sweep stays in its function.** -/
theorem keeps_sweep_confined (f : FuncId) (p : Program) :
    Act.Keeps (Session.Has (p.Confined f)) (sweep f) := by
  refine .of_succeeds fun s hs => ?_
  refine (succeeds_sweep (sweepable_confined f p) f s hs fun i hi => ?_).mono fun _ _ ht => ht.1
  obtain ⟨b, hb, hfunc⟩ := (Program.Confined.wellFormed hs).mem_funcInstrs.mp hi
  refine ⟨?_, Program.within_of_place hb hfunc⟩
  rw [hb]
  exact fun heq => by cases heq

end Walk

/-! ### The propagation -/

/-- Can the value be used in several functions? -/
def Value.isShared : Value → Bool
  | .const _ | .global _ => true
  | _ => false

namespace Program

variable {p q r : Program} {f : FuncId} {ρ ρ' : Value → Value}

/-- The value is an operand of a store of the function. -/
def StoreOperand (p : Program) (f : FuncId) (v : Value) : Prop :=
  ∃ i b, (p.instr i).place = .inBlock b ∧ b.func = f ∧ (p.instr i).op = .store ∧
    some v ∈ (p.instr i).operands

/-- The constant is what a store of the function stores. -/
def Stored (p : Program) (f : FuncId) (c : ConstId) : Prop :=
  ∃ i b, (p.instr i).place = .inBlock b ∧ b.func = f ∧ (p.instr i).op = .store ∧
    (p.instr i).operands.head? = some (some (.const c))

/-- The only values that `ρ` replaces are global variables and constants among the operands of stores
of the function, and it replaces them by constants that stores of the function store. -/
def ExchangesOnly (p : Program) (f : FuncId) (ρ : Value → Value) : Prop :=
  ∀ v, ρ v ≠ v → v.isShared = true ∧ p.StoreOperand f v ∧ ∃ c, ρ v = .const c ∧ p.Stored f c

theorem exchangesOnly_id (p : Program) (f : FuncId) : p.ExchangesOnly f id :=
  fun _ hv => absurd rfl hv

theorem ExchangesOnly.comp (h : p.ExchangesOnly f ρ) (h' : q.ExchangesOnly f ρ')
    (hoperand : ∀ v, q.StoreOperand f v → p.StoreOperand f v)
    (hstored : ∀ c, q.Stored f c → p.Stored f c) : p.ExchangesOnly f (ρ' ∘ ρ) := by
  intro v hv
  by_cases hρ : ρ v = v
  · rw [Function.comp_apply, hρ] at hv ⊢
    obtain ⟨hshared, hop, c, hc, hs⟩ := h' v hv
    exact ⟨hshared, hoperand v hop, c, hc, hstored c hs⟩
  · obtain ⟨hshared, hop, c, hc, hs⟩ := h v hρ
    refine ⟨hshared, hop, ?_⟩
    rw [Function.comp_apply, hc]
    -- What has become a constant may become another one.
    by_cases hρ' : ρ' (.const c) = .const c
    · exact ⟨c, hρ', hs⟩
    · obtain ⟨-, -, d, hd, hs'⟩ := h' _ hρ'
      exact ⟨d, hd, hstored d hs'⟩

/-- A store of the function puts a constant for its address. -/
structure Storing (f : FuncId) (p : Program) (i : InstrId) (c : ConstId) (a : Value) : Prop where
  /-- It is in the function. -/
  place : ∃ b, (p.instr i).place = .inBlock b ∧ b.func = f
  /-- It is a store. -/
  op : (p.instr i).op = .store
  /-- It stores the constant at the address. -/
  operands : (p.instr i).operands = [some (.const c), some a]

namespace Storing

variable {i : InstrId} {c : ConstId} {a : Value} (h : p.Storing f i c a)

include h

theorem storeOperand {v : Value} (hv : some v ∈ (p.instr i).operands) : p.StoreOperand f v := by
  obtain ⟨b, hi, hb⟩ := h.place
  exact ⟨i, b, hi, hb, h.op, hv⟩

theorem stored : p.Stored f c := by
  obtain ⟨b, hi, hb⟩ := h.place
  exact ⟨i, b, hi, hb, h.op, by rw [h.operands]; rfl⟩

/-- The operands of stores are among what they were. -/
theorem storeOperand_of_redirect (hexact : p.UsesExact) {v : Value}
    (hv : (p.redirect a (.const c)).StoreOperand f v) : p.StoreOperand f v := by
  have hsame := sameButOperands_redirect p a (.const c)
  obtain ⟨j, b, hj, hb, hop, hmem⟩ := hv
  rw [hsame.place] at hj
  rw [hsame.op] at hop
  rcases hexact.mem_operands_redirect hmem with hmem | ⟨heq, -⟩
  · exact ⟨j, b, hj, hb, hop, hmem⟩
  · cases heq
    exact h.storeOperand (by simp [h.operands])

/-- What stores store is among what they stored. -/
theorem stored_of_redirect (hexact : p.UsesExact) {d : ConstId}
    (hd : (p.redirect a (.const c)).Stored f d) : p.Stored f d := by
  have hsame := sameButOperands_redirect p a (.const c)
  obtain ⟨j, b, hj, hb, hop, hhead⟩ := hd
  rw [hsame.place] at hj
  rw [hsame.op] at hop
  rw [hexact.instr_redirect, Instr.substitute, List.head?_map] at hhead
  obtain ⟨v, hv, hsubst⟩ := Option.map_eq_some_iff.mp hhead
  unfold substituteIn at hsubst
  split at hsubst
  · cases hsubst
    exact h.stored
  · rw [hsubst] at hv
    exact ⟨j, b, hj, hb, hop, hv⟩

/-- **What a store does to other functions:** they see it only if its address is shared. -/
theorem exists_outside (hp : p.WellFormed) (hlocal : p.ParamsLocal) :
    ∃ ρ, p.Outside f ρ (p.redirect a (.const c)) ∧ p.ExchangesOnly f ρ := by
  obtain ⟨b, hi, hb⟩ := h.place
  have hmem : some a ∈ (p.instr i).operands := by simp [h.operands]
  by_cases hshared : a.isShared = true
  · refine ⟨fun v => if v = a then .const c else v, ?_, fun v hv => ?_⟩
    · exact outside_redirect hp.exact fun _ _ _ _ _ _ => rfl
    · by_cases hva : v = a
      · subst hva
        exact ⟨hshared, h.storeOperand hmem, c, if_pos rfl, h.stored⟩
      · exact absurd (if_neg hva) hv
  · refine ⟨id, ?_, p.exchangesOnly_id f⟩
    cases a with
    | const d => exact absurd rfl hshared
    | global g => exact absurd rfl hshared
    | instr d =>
      obtain ⟨cd, hcd, hfunc⟩ := hp.func_of_mem hi hmem
      exact outside_redirect_instr hp.toCoherent (within_of_place hcd (hfunc.trans hb)) _
    | param x =>
      refine outside_redirect_of_not_mem hp.exact _ fun j bj hj hbj hx => hbj ?_
      exact (hlocal x j i bj b hj hi hx hmem).trans hb

end Storing

theorem Propagates.rewrites (h : p.Propagates f q) : Rewrites [] p q := by
  induction h with
  | refl => exact .refl p
  | step _ _ _ _ _ ih => exact ih.change (.substitute _ _)

/-- **What the propagation does to other functions.** -/
theorem Propagates.exists_outside (h : p.Propagates f q) (hp : p.WellFormed)
    (hlocal : p.ParamsLocal) : ∃ ρ, p.Outside f ρ q ∧ p.ExchangesOnly f ρ := by
  -- The stores themselves change on the way, but only among what was there at the start.
  have hall : (∃ ρ, p.Outside f ρ q ∧ p.ExchangesOnly f ρ) ∧
      (∀ v, q.StoreOperand f v → p.StoreOperand f v) ∧ ∀ c, q.Stored f c → p.Stored f c := by
    induction h with
    | refl => exact ⟨⟨id, .refl f p, p.exchangesOnly_id f⟩, fun _ => id, fun _ => id⟩
    | step hq hi hb hop hops ih =>
      obtain ⟨⟨ρ, hout, honly⟩, hoperand, hstored⟩ := ih
      have hwf := hq.rewrites.wellFormed hp
      have hstoring : Storing f _ _ _ _ := ⟨⟨_, hi, hb⟩, hop, hops⟩
      obtain ⟨ρ', hout', honly'⟩ :=
        hstoring.exists_outside hwf (hq.rewrites.paramsLocal hp hlocal)
      refine ⟨⟨ρ' ∘ ρ, hout.trans hout', honly.comp honly' hoperand hstored⟩, ?_, ?_⟩
      · exact fun v hv => hoperand v (hstoring.storeOperand_of_redirect hwf.exact hv)
      · exact fun d hd => hstored d (hstoring.stored_of_redirect hwf.exact hd)
  exact hall.1

end Program

/-- The propagation replaces addresses of stores of its function. -/
theorem keeps_constProp_propagates (f : FuncId) (p : Program) :
    Act.Keeps (Session.Has fun q => q.WellFormed ∧ p.Propagates f q) (constProp f) := by
  refine Pass.keeps_constProp_of_solve f fun s hs => ?_
  refine (succeeds_solveReachingStores f s hs.1).ensures fun _ t ht => ?_
  exact ⟨ht.leads.wellFormed hs.1, hs.2.trans ht.propagates⟩

/-! ### Programs of accepted texts -/

/-- No two functions share a parameter. -/
theorem Program.ParamsNumbered.eq_of_mem {p : Program} (h : p.ParamsNumbered) {f g : FuncId}
    {a : ParamId} (hf : a ∈ (p.func f).params) (hg : a ∈ (p.func g).params) : f = g := by
  have hnodup : (p.funcs.toList.flatMap Func.params).Nodup := h ▸ List.nodup_range
  have hapart := (List.nodup_flatMap.mp hnodup).2
  have hget : ∀ {f}, a ∈ (p.func f).params →
      ∃ hlt : f < p.funcs.toList.length, p.funcs.toList[f] = p.func f := by
    intro f hf
    have hlt : f < p.funcs.size := by
      refine Nat.lt_of_not_le fun hle => ?_
      rw [func, Array.getD_eq_getD_getElem?, Array.getElem?_eq_none hle] at hf
      cases hf
    exact ⟨hlt, by simp [func, hlt]⟩
  obtain ⟨hltf, hgetf⟩ := hget hf
  obtain ⟨hltg, hgetg⟩ := hget hg
  rw [← hgetf] at hf
  rw [← hgetg] at hg
  -- Two different positions hold functions whose parameters are disjoint.
  rcases Nat.lt_trichotomy f g with hfg | hfg | hgf
  · exact absurd hg (List.pairwise_iff_getElem.mp hapart f g hltf hltg hfg hf)
  · exact hfg
  · exact absurd hf (List.pairwise_iff_getElem.mp hapart g f hltg hltf hgf hg)

section Accepted

variable {name : String} {src : ByteArray} {p : Program}

/-- An operand that is a parameter is one of its function. -/
theorem Source.Realizes.mem_params {f : FuncId} {fn : Source.FuncSyntax} {pbase ibase : Nat}
    (h : Source.Realizes p f fn pbase ibase) (hvalues : fn.valueNames.Nodup) {i : InstrId}
    (hi : i ∈ p.funcInstrs f) {a : ParamId} (ha : some (.param a) ∈ (p.instr i).operands) :
    a ∈ (p.func f).params := by
  obtain ⟨j, k, x, rfl, hsite⟩ := h.exists_of_mem hi
  obtain ⟨ts, vs, hinstr, -, hargs⟩ := h.instrs j k x hsite
  rw [hinstr] at ha
  obtain ⟨v, hv, hva⟩ := List.mem_map.mp ha
  cases hva
  obtain ⟨o, -, m, hdenotes⟩ := hargs.exists_of_mem hv
  unfold Source.Operand.Denotes at hdenotes
  split at hdenotes
  · -- The operand is a name, and the names that stand for parameters are those of the function.
    have hkeys : ((fn.names pbase ibase).map Prod.fst).Nodup := by
      rw [fn.map_fst_names]
      exact hvalues
    have hmem := (Source.Names.find?_eq_some_iff hkeys).mp hdenotes
    obtain ⟨l, y, rfl, hy, -⟩ := fn.mem_names_param.mp hmem
    obtain ⟨hl, -⟩ := List.getElem?_eq_some_iff.mp hy
    rw [h.func, Source.FuncSyntax.toFunc, List.mem_range'_1]
    omega
  · obtain ⟨g, -, hg⟩ := hdenotes
    cases hg
  · obtain ⟨c, -, hc, -⟩ := hdenotes
    cases hc

theorem Program.paramsLocal_of_parse (h : Program.parse name src = .ok p) : p.ParamsLocal := by
  have hwf := (Program.wellFormed_of_parse h).1
  obtain ⟨s, hs, hresolve⟩ := Program.parse_eq_ok_iff.mp h
  have hnumbered := Source.paramsNumbered_of_resolve hresolve
  have hrep := Source.represents_of_resolve hresolve
  have heach := ((Source.exists_resolve_iff name s).mp ⟨p, hresolve⟩).2
  have hown : ∀ {a i b}, (p.instr i).place = .inBlock b →
      some (.param a) ∈ (p.instr i).operands → a ∈ (p.func b.func).params := by
    intro a i b hi ha
    have hmem : i ∈ p.funcInstrs b.func := hwf.mem_funcInstrs.mpr ⟨b, hi, rfl⟩
    obtain ⟨fn, pbase, ibase, hfn, hrealizes⟩ :=
      hrep.exists_realizes (Program.lt_size_of_mem_funcInstrs hmem)
    exact hrealizes.mem_params (heach fn (List.mem_of_getElem? hfn)).values hmem ha
  intro a i j b c hi hj hai haj
  exact hnumbered.eq_of_mem (hown hi hai) (hown hj haj)

end Accepted

/-! ### The passes -/

/-- The passes that work on one function. -/
inductive FuncPass where
  /-- The peephole walk. -/
  | peephole
  /-- The propagation of constants. -/
  | constProp
  /-- The sweep. -/
  | sweep
  deriving DecidableEq, Repr

namespace FuncPass

/-- Runs a pass on a function. -/
def run : FuncPass → FuncId → Pass Bool
  | .peephole => Midend.peephole
  | .constProp => Midend.constProp
  | .sweep => Midend.sweep

/-- Runs passes one after the other, each on its function. -/
def runAll : List (FuncPass × FuncId) → Pass Unit
  | [] => pure ()
  | e :: rest => do
    discard (e.1.run e.2)
    runAll rest

theorem safe_run (pass : FuncPass) (f : FuncId) : Pass.Safe True 0 (pass.run f) := by
  cases pass with
  | peephole => exact safe_peephole f
  | constProp => exact safe_constProp f
  | sweep => exact safe_sweep f

theorem safe_runAll (l : List (FuncPass × FuncId)) : Pass.Safe True 0 (runAll l) := by
  induction l with
  | nil => exact .pure ()
  | cons e rest ih =>
    intro s hs
    rw [runAll, Act.Succeeds, Act.ensures_bind, Act.ensures_discard]
    refine (e.1.safe_run e.2 s hs).mono fun _ t ht => ?_
    exact (ih t (ht.wellFormed hs)).mono fun _ _ hu => ht.trans hu

/-- What a pass on `f` does outside that function. -/
theorem ensures_outside (pass : FuncPass) (f : FuncId) (s : Session) (hs : s.program.WellFormed)
    (hlocal : s.program.ParamsLocal) :
    (pass.run f).Ensures s (fun _ t => ∃ ρ, s.program.Outside f ρ t.program ∧
      s.program.ExchangesOnly f ρ ∧ (pass ≠ .constProp → ρ = id)) fun _ _ => True := by
  have hconfined : ∀ {m : Pass Bool}, Act.Keeps (Session.Has (s.program.Confined f)) m →
      m.Ensures s (fun _ t => ∃ ρ, s.program.Outside f ρ t.program ∧
        s.program.ExchangesOnly f ρ ∧ (pass ≠ .constProp → ρ = id)) fun _ _ => True := by
    intro m hm
    refine (hm s (.refl hs)).mono (fun _ t ht => ?_) fun _ _ _ => trivial
    exact ⟨id, Program.Confined.outside ht, s.program.exchangesOnly_id f, fun _ => rfl⟩
  cases pass with
  | peephole => exact hconfined (keeps_peephole_confined f s.program)
  | sweep => exact hconfined (keeps_sweep_confined f s.program)
  | constProp =>
    refine (keeps_constProp_propagates f s.program s ⟨hs, .refl⟩).mono (fun _ t ht => ?_)
      fun _ _ _ => trivial
    obtain ⟨ρ, hout, honly⟩ := ht.2.exists_outside hs hlocal
    exact ⟨ρ, hout, honly, fun hne => absurd rfl hne⟩

end FuncPass

/-- **What a pass on a function does to the others,** whatever passes ran before.  The peephole walk and
the sweep leave them as they are.  The propagation leaves them their blocks and instructions, and in each
operand slot what it holds, unless that is a global variable or a constant that is an operand of a store of
the function: all slots with the same such value get the same constant, which a store of the function
stores. -/
theorem funcPass_local {name : String} {src : ByteArray} (start : Session)
    (h : Program.parse name src = .ok start.program) (earlier : List (FuncPass × FuncId))
    (pass : FuncPass) (f : FuncId) :
    ∃ s changed t, FuncPass.runAll earlier start = (.ok (), s) ∧ pass.run f s = (.ok changed, t) ∧
      ∃ ρ, s.program.Outside f ρ t.program ∧ s.program.ExchangesOnly f ρ ∧
        (pass ≠ .constProp → ρ = id) := by
  have hp := (Program.wellFormed_of_parse h).1
  obtain ⟨_, s, hearlier, hs⟩ := (FuncPass.safe_runAll earlier start hp).exists_eq
  have hwf := hs.wellFormed hp
  have hlocal : s.program.ParamsLocal := by
    obtain ⟨ms, hms, -⟩ := hs.path
    exact hms.paramsLocal hp (Program.paramsLocal_of_parse h)
  have hrun := (pass.safe_run f s hwf).and (pass.ensures_outside f s hwf hlocal)
  obtain ⟨changed, t, hpass, -, hout⟩ :=
    Act.Succeeds.exists_eq (hrun.mono (fun _ _ => id) fun _ _ => And.left)
  exact ⟨s, changed, t, hearlier, hpass, hout⟩

/-- A text in which one function stores to a global variable and another one loads from it. -/
def sharedGlobal : ByteArray :=
  ("global @g : i32\nfunc @f() \x7b\nentry:\n    store i32 7, @g\n    ret void\n\x7d\n" ++
    "func @h() : i32 \x7b\nentry:\n    %x = load i32, @g\n    ret i32 %x\n\x7d\n").toUTF8

/-- The propagation in the one changes the other. -/
theorem constProp_changes_other : ∃ p, Program.parse "m" sharedGlobal = .ok p ∧
    ∃ t, FuncPass.constProp.run 0 { program := p } = (.ok true, t) ∧
      2 ∈ p.funcInstrs 1 ∧ (p.instr 2).operands = [some (.global 0)] ∧
      (t.program.instr 2).operands = [some (.const 0)] ∧ ¬ p.Outside 0 id t.program := by
  obtain ⟨p, hp, hfound⟩ : ∃ p, Program.parse "m" sharedGlobal = .ok p ∧
      ((p.funcInstrs 1).contains 2 && (p.instr 2).operands == [some (.global 0)] &&
        (p.instr 2).place == .inBlock ⟨1, 0⟩ &&
        (constPropWithin 1 0 { program := p }).1.toOption == some true &&
        ((constPropWithin 1 0 { program := p }).2.program.instr 2).operands ==
          [some (.const 0)]) = true :=
    Program.exists_of_parse (by decide +kernel)
  simp only [Bool.and_eq_true, beq_iff_eq, List.contains_iff_mem] at hfound
  obtain ⟨⟨⟨⟨hmem, hbefore⟩, hplace⟩, hrun⟩, hafter⟩ := hfound
  -- One round is enough for one block.
  have hwithin : (constPropWithin 1 0).Succeeds { program := p } fun changed t =>
      changed = true ∧ (t.program.instr 2).operands = [some (.const 0)] := by
    unfold Act.Succeeds Act.Ensures
    rcases hresult : constPropWithin 1 0 { program := p } with ⟨_ | changed, t⟩
    · rw [hresult] at hrun
      cases hrun
    · rw [hresult] at hrun hafter
      exact ⟨Option.some.inj hrun, hafter⟩
  obtain ⟨_, t, ht, rfl, hoperands⟩ := (succeeds_constProp_of_within 1 0 hwithin).exists_eq
  refine ⟨p, hp, t, ht, hmem, hbefore, hoperands, fun hout => ?_⟩
  rw [hout.instr 2 ⟨1, 0⟩ hplace (by decide), mapOperands_id, hbefore] at hoperands
  cases hoperands

theorem funcPass_local_sharedGlobal : ∃ p, Program.parse "m" sharedGlobal = .ok p ∧
    ∃ s changed t, FuncPass.runAll [(.peephole, 1), (.constProp, 0)] { program := p } = (.ok (), s) ∧
      FuncPass.sweep.run 1 s = (.ok changed, t) ∧ s.program.Outside 1 id t.program := by
  obtain ⟨p, hp, -⟩ : ∃ p, Program.parse "m" sharedGlobal = .ok p ∧ true = true :=
    Program.exists_of_parse (f := fun _ => true) (by decide +kernel)
  obtain ⟨s, changed, t, hs, ht, ρ, hout, -, hρ⟩ :=
    funcPass_local { program := p } hp [(.peephole, 1), (.constProp, 0)] .sweep 1
  have hid : ρ = id := hρ fun heq => by cases heq
  exact ⟨p, hp, s, changed, t, hs, ht, hid ▸ hout⟩

end Midend
