import Midend.Proofs.Source.ResolverSteps

/-!
# The program of a syntax

A syntax is accepted just if its names resolve, and the program that is built from it then says the same
in numbered parts: function by function the parameters, blocks and instructions are those of the draft,
and operands and targets stand for what they name.

## Main definitions

* `Realizes`: a function of a program is what its syntax says.
* `Represents`: a program is what its syntax says.

## Main results

* `decides_resolveFunc`: when a function is accepted.
* `exists_resolve_iff`, `represents_of_resolve`: when a program is accepted, and what it is then.
-/

namespace Midend

/-! ### The numbers of parameters -/

/-- The parameters of the functions, one function after the other, are numbered through. -/
def Program.ParamsNumbered (p : Program) : Prop :=
  p.funcs.toList.flatMap Func.params = List.range p.params.size

/-- One more function, whose parameters have the next numbers. -/
theorem Program.ParamsNumbered.push {p q : Program} (h : p.ParamsNumbered) {fn : Func} {n : Nat}
    (hfuncs : q.funcs = p.funcs.push fn) (hfn : fn.params = List.range' p.params.size n)
    (hsize : q.params.size = p.params.size + n) : q.ParamsNumbered := by
  unfold ParamsNumbered at h ⊢
  rw [hfuncs, hsize, Array.toList_push, List.flatMap_append, h, List.flatMap_singleton, hfn,
    List.range_eq_range', List.range_eq_range', ← List.range'_append_1, Nat.zero_add]

end Midend

namespace Midend.Source

/-! ### The order within a block -/

section Sites

variable {R : InstrSyntax → InstrSyntax → Prop}

theorem le_of_mem_sitesFrom {k : Nat} {bs : List BlockSyntax} {x : Nat × InstrSyntax}
    (hx : x ∈ sitesFrom k bs) : k ≤ x.1 := by
  induction bs generalizing k with
  | nil => exact absurd hx List.not_mem_nil
  | cons b bs ih =>
    rcases List.mem_append.mp hx with hx | hx
    · obtain ⟨i, -, rfl⟩ := List.mem_map.mp hx
      exact Nat.le_refl k
    · exact Nat.le_of_succ_le (ih hx)

/-- What holds of any two instructions of one block. -/
theorem pairwise_sitesFrom (k : Nat) (bs : List BlockSyntax) :
    (sitesFrom k bs).Pairwise (fun x y => x.1 = y.1 → R x.2 y.2) ↔
      ∀ b ∈ bs, b.instrs.Pairwise R := by
  induction bs generalizing k with
  | nil => simp [sitesFrom]
  | cons b bs ih =>
    have hblock : (b.instrs.map (k, ·)).Pairwise (fun x y => x.1 = y.1 → R x.2 y.2) ↔
        b.instrs.Pairwise R := by
      simp [List.pairwise_map]
    have hapart : ∀ x ∈ b.instrs.map (k, ·), ∀ y ∈ sitesFrom (k + 1) bs,
        x.1 = y.1 → R x.2 y.2 := by
      intro x hx y hy hxy
      obtain ⟨i, -, rfl⟩ := List.mem_map.mp hx
      exact absurd (Nat.le_trans (le_of_mem_sitesFrom hy) (Nat.le_of_eq hxy.symm))
        (Nat.not_succ_le_self k)
    rw [sitesFrom, List.pairwise_append, hblock, ih, List.forall_mem_cons]
    exact ⟨fun h => ⟨h.1, h.2.1⟩, fun h => ⟨h.1, h.2, hapart⟩⟩

/-- The order of the blocks, said with the positions in the whole function. -/
theorem ordered_iff_sites (fn : FuncSyntax) :
    (∀ b ∈ fn.blocks, (∀ i ∈ b.instrs, ¬i.Uses i) ∧ b.instrs.Pairwise fun i d => ¬i.Uses d) ↔
      ∀ (j j' : Nat) (x y : Nat × InstrSyntax), fn.sites[j]? = some x → fn.sites[j']? = some y →
        x.1 = y.1 → x.2.Uses y.2 → j' < j := by
  have hself : (∀ x ∈ fn.sites, ¬x.2.Uses x.2) ↔ ∀ b ∈ fn.blocks, ∀ i ∈ b.instrs, ¬i.Uses i := by
    have hmap := List.forall_mem_map (l := fn.sites) (f := Prod.snd) (P := fun i => ¬i.Uses i)
    rw [← hmap, fn.map_snd_sites, FuncSyntax.instrs, List.forall_mem_flatMap]
  have hpair := pairwise_sitesFrom (R := fun i d => ¬i.Uses d) 0 fn.blocks
  rw [forall₂_and, ← hself, ← hpair, List.pairwise_iff_getElem]
  change _ ∧ (∀ j j' (hj : j < fn.sites.length) (hj' : j' < fn.sites.length), j < j' →
    fn.sites[j].1 = fn.sites[j'].1 → ¬fn.sites[j].2.Uses fn.sites[j'].2) ↔ _
  constructor
  · rintro ⟨hitself, hlater⟩ j j' x y hx hy hxy huses
    obtain ⟨hj, rfl⟩ := List.getElem?_eq_some_iff.mp hx
    obtain ⟨hj', rfl⟩ := List.getElem?_eq_some_iff.mp hy
    rcases Nat.lt_trichotomy j j' with hlt | rfl | hlt
    · exact absurd huses (hlater j j' hj hj' hlt hxy)
    · exact absurd huses (hitself _ (List.getElem_mem hj))
    · exact hlt
  · intro h
    constructor
    · intro x hx huses
      obtain ⟨j, hj, rfl⟩ := List.getElem_of_mem hx
      have hj' := List.getElem?_eq_getElem hj
      exact Nat.lt_irrefl j (h j j _ _ hj' hj' rfl huses)
    · intro j j' hj hj' hlt hxy huses
      exact Nat.lt_asymm hlt
        (h j j' _ _ (List.getElem?_eq_getElem hj) (List.getElem?_eq_getElem hj') hxy huses)

end Sites

/-! ### Names of a function that resolve -/

/-- The names of the global variables of a program. -/
def globalNames (p : Program) : List String := p.globals.cells.toList.map (·.name)

/-- The program before the instructions of a function are linked. -/
def drafted (p : Program) (fn : FuncSyntax) : Program :=
  p.draft fn (fn.params.map fun a => ⟨a.name, a.ty⟩) (blocksOf 0 p.instrs.size fn.blocks)
    (instrsOf p.funcs.size 0 fn.sites) (linksOf p.links p.instrs.size fn.blocks)

section Function

variable {p : Program} {fn : FuncSyntax}

theorem isSome_findGlobal? (p : Program) (name : String) :
    (p.findGlobal? name).isSome = true ↔ name ∈ globalNames p := by
  rw [Program.findGlobal?, Array.findIdx?_isSome, ← Array.any_toList, List.any_eq_true, globalNames,
    List.mem_map]
  simp

theorem found_iff (pbase ibase : Nat) (a : Operand) :
    a.Found p (fn.names pbase ibase) ↔ a.Known fn.valueNames (globalNames p) := by
  obtain ⟨pos, form⟩ := a
  unfold Operand.Found Operand.Known
  cases form with
  | value n =>
    dsimp only
    rw [Names.isSome_find?, fn.map_fst_names]
  | global n => exact isSome_findGlobal? p n
  | literal x => exact Iff.rfl

theorem instr_drafted {j k : Nat} {i : InstrSyntax} (hj : fn.sites[j]? = some (k, i)) :
    (drafted p fn).instr (p.instrs.size + j) = instrAt ⟨p.funcs.size, k⟩ j i := by
  rw [drafted, Program.instr_draft, getElem?_instrsOf, hj]
  rfl

theorem exists_site {j : Nat} {i : InstrSyntax} (hj : fn.instrs[j]? = some i) :
    ∃ k, fn.sites[j]? = some (k, i) := by
  rw [← fn.map_snd_sites, List.getElem?_map, Option.map_eq_some_iff] at hj
  obtain ⟨x, hx, rfl⟩ := hj
  exact ⟨x.1, hx⟩

theorem getElem?_instrs_of_site {j k : Nat} {i : InstrSyntax} (hj : fn.sites[j]? = some (k, i)) :
    fn.instrs[j]? = some i := by
  rw [← fn.map_snd_sites, List.getElem?_map, hj]
  rfl

/-- The check of the order of instructions, said on the syntax. -/
theorem precedes_iff (hvalues : fn.valueNames.Nodup) :
    (∀ e ∈ enumerate p.instrs.size fn.instrs, ∀ a ∈ e.2.args,
      a.Precedes (drafted p fn) (fn.names p.params.size p.instrs.size) e.1) ↔
    ∀ b ∈ fn.blocks, (∀ i ∈ b.instrs, ¬i.Uses i) ∧ b.instrs.Pairwise fun i d => ¬i.Uses d := by
  rw [ordered_iff_sites]
  have hfind : ∀ n d, (fn.names p.params.size p.instrs.size).find? n = some (.instr d) ↔
      ∃ j x, d = p.instrs.size + j ∧ fn.instrs[j]? = some x ∧ x.defines = some n := by
    intro n d
    rw [Names.find?_eq_some_iff (by rw [fn.map_fst_names]; exact hvalues), fn.mem_names_instr]
  constructor
  · intro h j j' x y hx hy hxy huses
    obtain ⟨a, ha, n, hform, hdef⟩ := huses
    have hx' := getElem?_instrs_of_site hx
    have hbefore := h (p.instrs.size + j, x.2) (mem_enumerate.mpr ⟨j, rfl, hx'⟩) a ha n
      (p.instrs.size + j') hform ((hfind _ _).mpr ⟨j', y.2, rfl, getElem?_instrs_of_site hy, hdef⟩)
    rw [instr_drafted hx, instr_drafted hy, instrAt, instrAt, hxy] at hbefore
    exact Nat.lt_of_add_lt_add_left (hbefore rfl)
  · intro h e he a ha n d hform hd hplace
    obtain ⟨j, hj, hx⟩ := mem_enumerate.mp he
    obtain ⟨j', y, rfl, hy, hdef⟩ := (hfind n d).mp hd
    obtain ⟨k, hsite⟩ := exists_site hx
    obtain ⟨k', hsite'⟩ := exists_site hy
    rw [hj, instr_drafted hsite, instr_drafted hsite'] at hplace
    have hk : k = k' := by
      cases hplace
      rfl
    rw [hj]
    exact Nat.add_lt_add_left (h j j' _ _ hsite hsite' hk ⟨a, ha, n, hform, hdef⟩) _

/-- The instructions of a draft can be linked. -/
def AllLinkable (p : Program) (fn : FuncSyntax) : Prop :=
  ∀ e ∈ enumerate p.instrs.size fn.instrs, Linkable (drafted p fn) p.funcs.size
    (fn.names p.params.size p.instrs.size) e

/-- The instructions of a function can be linked just if its operands and targets are defined and its
blocks are in order. -/
theorem linkable_iff (hvalues : fn.valueNames.Nodup) :
    AllLinkable p fn ↔
    (∀ i ∈ fn.instrs, ∀ a ∈ i.args, a.Known fn.valueNames (globalNames p)) ∧
      (∀ i ∈ fn.instrs, ∀ t ∈ i.targets, t.name ∈ fn.labels) ∧
      ∀ b ∈ fn.blocks, (∀ i ∈ b.instrs, ¬i.Uses i) ∧ b.instrs.Pairwise fun i d => ¬i.Uses d := by
  have hinstrs : ∀ P : InstrSyntax → Prop,
      (∀ e ∈ enumerate p.instrs.size fn.instrs, P e.2) ↔ ∀ i ∈ fn.instrs, P i := by
    intro P
    rw [← List.forall_mem_map, map_snd_enumerate]
  have htarget : ∀ name, ((drafted p fn).findBlock? p.funcs.size name).isSome = true ↔
      name ∈ fn.labels := by
    intro name
    rw [drafted, Program.isSome_findBlock?_draft, map_name_blocksOf, FuncSyntax.labels]
  rw [← precedes_iff hvalues, ← hinstrs, ← hinstrs]
  constructor
  · intro h
    refine ⟨fun e he a ha => ?_, fun e he t ht => ?_, fun e he a ha => ?_⟩
    · exact (found_iff _ _ a).mp ((h e he).operands a ha).1
    · exact (htarget t.name).mp ((h e he).targets t ht)
    · exact ((h e he).operands a ha).2
  · rintro ⟨hknown, htargets, hprecedes⟩ e he
    refine ⟨fun a ha => ⟨?_, hprecedes e he a ha⟩, fun t ht => ?_⟩
    · exact (found_iff _ _ a).mpr (hknown e he a ha)
    · exact (htarget t.name).mpr (htargets e he t ht)

end Function

/-! ### What becomes of a function -/

/-- The function that is made, where `pbase` and `ibase` are the first numbers for its parameters and
its instructions. -/
def FuncSyntax.toFunc (fn : FuncSyntax) (pbase ibase : Nat) : Func :=
  { name := fn.name, ret := fn.ret, params := List.range' pbase fn.params.length,
    blocks := (blocksOf 0 ibase fn.blocks).toArray, lastId := fn.instrs.length }

/-- The function `f` of a program is what a syntax says, where `pbase` and `ibase` are the first numbers
of its parameters and its instructions. -/
structure Realizes (p : Program) (f : FuncId) (fn : FuncSyntax) (pbase ibase : Nat) : Prop where
  /-- The function has its name, its blocks and so on. -/
  func : p.func f = fn.toFunc pbase ibase
  /-- The parameters are there. -/
  size_params : pbase + fn.params.length ≤ p.params.size
  /-- Parameters have their names and types. -/
  params : ∀ j a, fn.params[j]? = some a → p.params.get (pbase + j) = ⟨a.name, a.ty⟩
  /-- The instructions are there. -/
  size_instrs : ibase + fn.instrs.length ≤ p.instrs.size
  /-- Instructions are what they are in the draft, with operands and targets. -/
  instrs : ∀ j k i, fn.sites[j]? = some (k, i) → ∃ ts vs,
    p.instr (ibase + j) = { instrAt ⟨f, k⟩ j i with targets := ts, operands := vs.map some } ∧
      List.Forall₂ (fun t b => p.findBlock? f t.name = some b) i.targets ts ∧
      i.Denotes p (fn.names pbase ibase) 0 i.args vs

/-- The program `q` has all parts of `p`, unchanged, and maybe more. -/
structure Extends (p q : Program) : Prop extends Widens p q where
  /-- No function is lost. -/
  size_funcs : p.funcs.size ≤ q.funcs.size
  /-- Functions stay as they are. -/
  funcs : ∀ f < p.funcs.size, q.func f = p.func f
  /-- No parameter is lost. -/
  size_params : p.params.size ≤ q.params.size
  /-- Parameters stay as they are. -/
  params : ∀ a < p.params.size, q.params.get a = p.params.get a
  /-- No instruction is lost. -/
  size_instrs : p.instrs.size ≤ q.instrs.size
  /-- Instructions stay as they are. -/
  instrs : ∀ i < p.instrs.size, q.instr i = p.instr i

section Functions

variable {p q : Program} {f : FuncId} {fn : FuncSyntax} {pbase ibase : Nat}

theorem Extends.refl (p : Program) : Extends p p :=
  ⟨.refl p, Nat.le_refl _, fun _ _ => rfl, Nat.le_refl _, fun _ _ => rfl, Nat.le_refl _,
    fun _ _ => rfl⟩

theorem Extends.trans {r : Program} (h : Extends p q) (h' : Extends q r) : Extends p r where
  toWidens := h.toWidens.trans h'.toWidens
  size_funcs := Nat.le_trans h.size_funcs h'.size_funcs
  funcs f hf := (h'.funcs f (Nat.lt_of_lt_of_le hf h.size_funcs)).trans (h.funcs f hf)
  size_params := Nat.le_trans h.size_params h'.size_params
  params a ha := (h'.params a (Nat.lt_of_lt_of_le ha h.size_params)).trans (h.params a ha)
  size_instrs := Nat.le_trans h.size_instrs h'.size_instrs
  instrs i hi := (h'.instrs i (Nat.lt_of_lt_of_le hi h.size_instrs)).trans (h.instrs i hi)

/-- A function stays what it is when others are added. -/
theorem Realizes.mono (h : Realizes p f fn pbase ibase) (hf : f < p.funcs.size)
    (hq : Extends p q) : Realizes q f fn pbase ibase := by
  have hfunc := hq.funcs f hf
  refine ⟨hfunc.trans h.func, Nat.le_trans h.size_params hq.size_params, fun j a ha => ?_,
    Nat.le_trans h.size_instrs hq.size_instrs, fun j k i hi => ?_⟩
  · obtain ⟨hj, -⟩ := List.getElem?_eq_some_iff.mp ha
    rw [hq.params _ (Nat.lt_of_lt_of_le (Nat.add_lt_add_left hj _) h.size_params), h.params j a ha]
  · obtain ⟨hj, -⟩ := List.getElem?_eq_some_iff.mp hi
    rw [fn.length_sites] at hj
    obtain ⟨ts, vs, hinstr, htargets, hargs⟩ := h.instrs j k i hi
    refine ⟨ts, vs, ?_, ?_, hargs.mono hq.toWidens⟩
    · rw [hq.instrs _ (Nat.lt_of_lt_of_le (Nat.add_lt_add_left hj _) h.size_instrs), hinstr]
    · simp only [Program.findBlock?, hfunc]
      exact htargets

/-- The program is the draft of a function with its instructions linked. -/
def Completes (p : Program) (fn : FuncSyntax) (q : Program) : Prop :=
  Linked p.funcs.size (fn.names p.params.size p.instrs.size)
    (enumerate p.instrs.size fn.instrs) (drafted p fn) q

section Completes

variable (h : Completes p fn q)

include h

theorem Completes.funcs_eq : q.funcs = p.funcs.push (fn.toFunc p.params.size p.instrs.size) := by
  rw [h.funcs, drafted, Program.draft, FuncSyntax.toFunc]
  simp only [List.length_map, length_instrsOf, fn.length_sites]

theorem Completes.size_eq : q.instrs.size = p.instrs.size + fn.instrs.length := by
  rw [h.size, drafted, Program.size_instrs_draft, length_instrsOf, fn.length_sites]

theorem Completes.params_eq :
    q.params = ⟨p.params.cells ++ (fn.params.map fun a => Param.mk a.name a.ty).toArray⟩ :=
  h.params

theorem Completes.size_params_eq : q.params.size = p.params.size + fn.params.length := by
  rw [h.params_eq, Table.size_append, List.length_map]

/-- What was there before is not touched. -/
theorem Completes.extends : Extends p q where
  globals := h.globals
  size_consts := h.size_consts
  consts := h.consts
  size_funcs := by simp [h.funcs_eq]
  funcs f hf := by simp [Program.func, h.funcs_eq, Array.getElem?_push, Nat.ne_of_lt hf]
  size_params := by
    rw [h.params_eq, Table.size_append]
    exact Nat.le_add_right _ _
  params a ha := by rw [h.params_eq, Table.get_append_of_lt _ _ ha]
  size_instrs := by
    rw [h.size_eq]
    exact Nat.le_add_right _ _
  instrs i hi := by
    have hmade : i ∉ (enumerate p.instrs.size fn.instrs).map Prod.fst := by
      rw [map_fst_enumerate, List.mem_range'_1]
      exact fun hmem => Nat.not_lt_of_le hmem.1 hi
    rw [h.others i hmade]
    exact Table.get_append_of_lt p.instrs _ hi

/-- Linking turns the draft into the function. -/
theorem Completes.realizes : Realizes q p.funcs.size fn p.params.size p.instrs.size where
  func := by simp [Program.func, h.funcs_eq]
  size_params := Nat.le_of_eq h.size_params_eq.symm
  params j a ha := by
    rw [h.params_eq, Table.get_append, List.getElem?_map, ha]
    rfl
  size_instrs := Nat.le_of_eq h.size_eq.symm
  instrs j k i hi := by
    have hmade : (p.instrs.size + j, i) ∈ enumerate p.instrs.size fn.instrs :=
      mem_enumerate.mpr ⟨j, rfl, getElem?_instrs_of_site hi⟩
    obtain ⟨ts, vs, hinstr, htargets, hargs⟩ := h.linked _ hmade
    rw [instr_drafted hi] at hinstr
    refine ⟨ts, vs, hinstr, ?_, hargs⟩
    simpa only [Program.findBlock?, Program.func_congr h.funcs] using htargets

end Completes

theorem isSome_findFunc? (p : Program) (name : String) :
    (p.findFunc? name).isSome = true ↔ name ∈ p.funcs.toList.map (·.name) := by
  rw [Program.findFunc?, Array.findIdx?_isSome, ← Array.any_toList, List.any_eq_true, List.mem_map]
  simp

/-- Filling and linking the blocks of a draft. -/
theorem decides_bodies (hparams : (fn.params.map (·.name)).Nodup) :
    Decides (do
        let r ← resolveBodies p.funcs.size 0 (paramNames p.params.size fn.params) fn.blocks
        resolveUses p.funcs.size r.1 r.2)
      (p.draft fn (fn.params.map fun a => ⟨a.name, a.ty⟩) (bareBlocks 0 fn.blocks) [] p.links)
      (((∀ b ∈ fn.blocks, b.instrs.Pairwise fun i _ => i.op.isTerminator = false) ∧
          fn.valueNames.Nodup) ∧
        AllLinkable p fn)
      fun _ q => Completes p fn q := by
  have hnames : ((paramNames p.params.size fn.params).map Prod.fst).Nodup := by
    rw [map_fst_paramNames]
    exact hparams
  have hvalues : (paramNames p.params.size fn.params).map Prod.fst ++
      (fn.blocks.flatMap (·.instrs)).filterMap InstrSyntax.defines = fn.valueNames := by
    rw [map_fst_paramNames]
    rfl
  have hbodies := @decides_resolveBodies p fn (fn.params.map fun a => ⟨a.name, a.ty⟩) [] p.links
    (paramNames p.params.size fn.params) [] fn.blocks hnames
  rw [hvalues] at hbodies
  refine hbodies.bind fun r q _ hq => ?_
  obtain ⟨rfl, rfl⟩ := hq
  refine decides_resolveUses ?_ fun e he => ?_
  · rw [map_fst_enumerate]
    exact List.nodup_range'
  · obtain ⟨j, hj, hi⟩ := mem_enumerate.mp he
    obtain ⟨hlt, -⟩ := List.getElem?_eq_some_iff.mp hi
    rw [hj, Program.size_instrs_draft, List.nil_append, length_instrsOf]
    exact Nat.add_lt_add_left (Nat.lt_of_lt_of_eq hlt fn.length_sites.symm) _

/-- Adding blocks to a draft and filling them. -/
theorem decides_blocks (hparams : (fn.params.map (·.name)).Nodup) :
    Decides (do
        resolveBlocks p.funcs.size fn.blocks
        let r ← resolveBodies p.funcs.size 0 (paramNames p.params.size fn.params) fn.blocks
        resolveUses p.funcs.size r.1 r.2)
      (p.draft fn (fn.params.map fun a => ⟨a.name, a.ty⟩) [] [] p.links)
      (fn.labels.Nodup ∧
        ((∀ b ∈ fn.blocks, b.instrs.Pairwise fun i _ => i.op.isTerminator = false) ∧
          fn.valueNames.Nodup) ∧
        AllLinkable p fn)
      fun _ q => Completes p fn q := by
  have hnone : (([] : List Block).map (·.name)).Nodup := List.nodup_nil
  refine (decides_resolveBlocks fn.blocks hnone).bind fun _ q _ hq => ?_
  subst hq
  exact decides_bodies hparams

/-- The conditions of the single steps, put together. -/
theorem resolves_iff :
    ((fn.params.map (·.name)).Nodup ∧ fn.labels.Nodup ∧
      ((∀ b ∈ fn.blocks, b.instrs.Pairwise fun i _ => i.op.isTerminator = false) ∧
        fn.valueNames.Nodup) ∧
      AllLinkable p fn) ↔ fn.Resolves (globalNames p) := by
  constructor
  · rintro ⟨-, hlabels, ⟨hjumps, hvalues⟩, hlinkable⟩
    obtain ⟨hoperands, htargets, hordered⟩ := (linkable_iff hvalues).mp hlinkable
    exact ⟨hvalues, hlabels, fun b hb => ⟨hjumps b hb, (hordered b hb).1, (hordered b hb).2⟩,
      hoperands, htargets⟩
  · intro h
    refine ⟨(List.nodup_append.mp h.values).1, h.labels, ⟨fun b hb => (h.ordered b hb).jumps, h.values⟩,
      (linkable_iff h.values).mpr ⟨h.operands, h.targets, fun b hb => ?_⟩⟩
    exact ⟨(h.ordered b hb).itself, (h.ordered b hb).later⟩

/-- **A function is accepted just if it is new and its names resolve.** -/
theorem decides_resolveFunc (fn : FuncSyntax) (p : Program) :
    Decides (resolveFunc fn) p
      (fn.name ∉ p.funcs.toList.map (·.name) ∧ fn.Resolves (globalNames p)) fun _ q =>
        Extends p q ∧ q.funcs = p.funcs.push (fn.toFunc p.params.size p.instrs.size) ∧
          q.params.size = p.params.size + fn.params.length ∧
          Realizes q p.funcs.size fn p.params.size p.instrs.size := by
  have hadd : (modifyGet (·.addFunc fn.name fn.ret) : Resolver FuncId) p =
      .ok (p.funcs.size, p.draft fn [] [] [] p.links) := congrArg Except.ok (p.addFunc_eq fn)
  have hparams : Decides (do
        let names ← resolveParams p.funcs.size [] fn.params
        resolveBlocks p.funcs.size fn.blocks
        let r ← resolveBodies p.funcs.size 0 names fn.blocks
        resolveUses p.funcs.size r.1 r.2) (p.draft fn [] [] [] p.links) (fn.Resolves (globalNames p))
      fun _ q => Completes p fn q := by
    refine Decides.congr (Decides.bind (decides_resolveParams fn.params List.nodup_nil)
      fun names q hC hq => ?_) resolves_iff
    obtain ⟨rfl, rfl⟩ := hq
    exact decides_blocks hC
  unfold resolveFunc
  refine Decides.after rfl ?_
  dsimp only
  refine (Decides.guard fun _ => Decides.after hadd hparams).mono ?_ fun _ q _ hq => ?_
  · rw [isSome_findFunc?]
  · exact ⟨hq.extends, hq.funcs_eq, hq.size_params_eq, hq.realizes⟩

/-- The functions of a program are accepted just if they are new and their names resolve. -/
theorem decides_resolveFuncs (l : List FuncSyntax) (hp : (p.funcs.toList.map (·.name)).Nodup) :
    Decides (resolveFuncs l) p
      ((p.funcs.toList.map (·.name) ++ l.map (·.name)).Nodup ∧
        ∀ fn ∈ l, fn.Resolves (globalNames p)) fun _ q =>
      Extends p q ∧ q.funcs.size = p.funcs.size + l.length ∧
        (p.ParamsNumbered → q.ParamsNumbered) ∧ ∀ j fn, l[j]? = some fn →
          ∃ pbase ibase, Realizes q (p.funcs.size + j) fn pbase ibase := by
  induction l generalizing p with
  | nil =>
    rw [resolveFuncs]
    exact (Decides.pure ⟨.refl p, rfl, id, by simp⟩).congr (by simpa using hp)
  | cons fn rest ih =>
    rw [resolveFuncs]
    refine ((decides_resolveFunc fn p).bind (D := (p.funcs.toList.map (·.name) ++ [fn.name] ++
        rest.map (·.name)).Nodup ∧ ∀ fn' ∈ rest, fn'.Resolves (globalNames p))
      fun _ q hC hq => ?_).congr ?_
    · obtain ⟨hextends, hfuncs, hparams, hrealizes⟩ := hq
      have hnames : q.funcs.toList.map (·.name) = p.funcs.toList.map (·.name) ++ [fn.name] := by
        rw [hfuncs, Array.toList_push, List.map_append]
        rfl
      have hglobals : globalNames q = globalNames p := by rw [globalNames, globalNames, hextends.globals]
      have hsize : q.funcs.size = p.funcs.size + 1 := by rw [hfuncs, Array.size_push]
      have hnew : (q.funcs.toList.map (·.name)).Nodup := by
        rw [hnames]
        exact nodup_concat hp hC.1
      refine (ih hnew).mono (by rw [hnames, hglobals]) fun _ r _ hr => ?_
      obtain ⟨hextends', hsize', hnumbered, heach⟩ := hr
      refine ⟨hextends.trans hextends', ?_, fun hp => hnumbered (hp.push hfuncs rfl hparams),
        fun j fn' hj => ?_⟩
      · rw [hsize', hsize, List.length_cons]
        omega
      · cases j with
        | zero =>
          cases hj
          have hf : p.funcs.size < q.funcs.size := hsize ▸ Nat.lt_succ_self _
          exact ⟨_, _, hrealizes.mono hf hextends'⟩
        | succ j =>
          obtain ⟨pbase, ibase, hj'⟩ := heach j fn' hj
          rw [hsize, Nat.add_assoc, Nat.add_comm 1 j] at hj'
          exact ⟨pbase, ibase, hj'⟩
    · rw [List.forall_mem_cons, List.map_cons, ← nodup_append_cons]
      constructor
      · rintro ⟨⟨hnew, hfn⟩, hnodup, hrest⟩
        exact ⟨⟨hnew, hnodup⟩, hfn, hrest⟩
      · rintro ⟨⟨hnew, hnodup⟩, hfn, hrest⟩
        exact ⟨⟨hnew, hfn⟩, hnodup, hrest⟩

end Functions

/-! ### Programs -/

/-- The program is what a syntax says. -/
structure Represents (p : Program) (s : ProgramSyntax) : Prop where
  /-- The global variables are those of the syntax. -/
  globals : p.globals.cells.toList = s.globals.map fun g => ⟨g.name, g.elem⟩
  /-- There are as many functions. -/
  size : p.funcs.size = s.funcs.length
  /-- Every function is what its syntax says. -/
  funcs : ∀ f fn, s.funcs[f]? = some fn → ∃ pbase ibase, Realizes p f fn pbase ibase

theorem Represents.exists_realizes {p : Program} {s : ProgramSyntax} (h : Represents p s) {f : FuncId}
    (hf : f < p.funcs.size) :
    ∃ fn pbase ibase, s.funcs[f]? = some fn ∧ Realizes p f fn pbase ibase := by
  have hfn := List.getElem?_eq_getElem (h.size ▸ hf)
  obtain ⟨pbase, ibase, hrealizes⟩ := h.funcs f _ hfn
  exact ⟨_, pbase, ibase, hfn, hrealizes⟩

theorem declareGlobals_eq (name : String) (globals : List GlobalSyntax) :
    (declareGlobals name globals).funcs = #[] ∧
      (declareGlobals name globals).globals.cells.toList =
        globals.map fun g => Global.mk g.name g.elem := by
  have hfold : ∀ (l : List GlobalSyntax) (p : Program),
      (l.foldl (fun p g => (p.addGlobal g.name g.elem).2) p).funcs = p.funcs ∧
        (l.foldl (fun p g => (p.addGlobal g.name g.elem).2) p).globals.cells.toList =
          p.globals.cells.toList ++ l.map fun g => Global.mk g.name g.elem := by
    intro l
    induction l with
    | nil => exact fun p => ⟨rfl, (List.append_nil _).symm⟩
    | cons g l ih =>
      intro p
      obtain ⟨hfuncs, hglobals⟩ := ih (p.addGlobal g.name g.elem).2
      refine ⟨hfuncs, hglobals.trans ?_⟩
      simp [Program.addGlobal, Table.push]
  exact hfold globals (Program.empty name)

theorem resolve_eq_ok_iff {name : String} {s : ProgramSyntax} {p : Program} :
    s.resolve name = .ok p ↔
      resolveFuncs s.funcs (declareGlobals name s.globals) = .ok ((), p) := by
  change (resolveFuncs s.funcs (declareGlobals name s.globals) >>= fun r => pure r.2) = _ ↔ _
  cases resolveFuncs s.funcs (declareGlobals name s.globals) with
  | error e => exact ⟨nofun, nofun⟩
  | ok r =>
    constructor
    · intro h
      exact congrArg (fun q => Except.ok ((), q)) (Except.ok.inj h)
    · intro h
      cases h
      rfl

/-- **A program is accepted just if its functions are distinct and their names resolve.**  Then it is
what the syntax says. -/
theorem decides_resolve (name : String) (s : ProgramSyntax) :
    Decides (resolveFuncs s.funcs) (declareGlobals name s.globals)
      ((s.funcs.map (·.name)).Nodup ∧ ∀ fn ∈ s.funcs, fn.Resolves (s.globals.map (·.name)))
      fun _ p => Represents p s := by
  obtain ⟨hfuncs, hglobals⟩ := declareGlobals_eq name s.globals
  have hnames : globalNames (declareGlobals name s.globals) = s.globals.map (·.name) := by
    rw [globalNames, hglobals, List.map_map]
    rfl
  have hnone : (declareGlobals name s.globals).funcs.toList.map (·.name) = [] := by
    rw [hfuncs]
    rfl
  refine (decides_resolveFuncs s.funcs (by rw [hnone]; exact List.nodup_nil)).mono ?_ fun _ p _ hp => ?_
  · rw [hnone, hnames, List.nil_append]
  · obtain ⟨hextends, hsize, -, heach⟩ := hp
    rw [hfuncs, Array.size_empty, Nat.zero_add] at hsize
    refine ⟨?_, hsize, fun f fn hf => ?_⟩
    · rw [hextends.globals, hglobals]
    · have hrealizes := heach f fn hf
      rwa [hfuncs, Array.size_empty, Nat.zero_add] at hrealizes

theorem exists_resolve_iff (name : String) (s : ProgramSyntax) :
    (∃ p, s.resolve name = .ok p) ↔ (s.funcs.map (·.name)).Nodup ∧
      ∀ fn ∈ s.funcs, fn.Resolves (s.globals.map (·.name)) := by
  simp only [resolve_eq_ok_iff]
  constructor
  · rintro ⟨p, hp⟩
    exact ((decides_resolve name s).1 _ _ hp).1
  · intro h
    obtain ⟨_, p, hp⟩ := (decides_resolve name s).2 h
    exact ⟨p, hp⟩

theorem represents_of_resolve {name : String} {s : ProgramSyntax} {p : Program}
    (h : s.resolve name = .ok p) : Represents p s :=
  ((decides_resolve name s).1 _ _ (resolve_eq_ok_iff.mp h)).2

theorem paramsNumbered_declareGlobals (name : String) (globals : List GlobalSyntax) :
    (declareGlobals name globals).ParamsNumbered := by
  have hfold : ∀ (l : List GlobalSyntax) (p : Program), p.ParamsNumbered →
      (l.foldl (fun p g => (p.addGlobal g.name g.elem).2) p).ParamsNumbered := by
    intro l
    induction l with
    | nil => exact fun p hp => hp
    | cons g l ih => exact fun p hp => ih (p.addGlobal g.name g.elem).2 hp
  exact hfold globals (Program.empty name) rfl

theorem paramsNumbered_of_resolve {name : String} {s : ProgramSyntax} {p : Program}
    (h : s.resolve name = .ok p) : p.ParamsNumbered := by
  obtain ⟨hfuncs, -⟩ := declareGlobals_eq name s.globals
  have hnone : ((declareGlobals name s.globals).funcs.toList.map (·.name)).Nodup := by
    rw [hfuncs]
    exact List.nodup_nil
  have hresolved := ((decides_resolveFuncs s.funcs hnone).1 _ _ (resolve_eq_ok_iff.mp h)).2
  exact hresolved.2.2.1 (paramsNumbered_declareGlobals name s.globals)

end Midend.Source
