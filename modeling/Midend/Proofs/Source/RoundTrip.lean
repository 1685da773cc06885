import Midend.Proofs.Program.Printer
import Midend.Proofs.Source.RevisedText
import Midend.Proofs.Text.Encoding

/-!
# Printing and reading again

The text of the program of an accepted text is that text, revised.  It is accepted in its turn, and says
the same again, just if no number of a result is taken for a name and nothing of type `void` is returned.

## Main definitions

* `Program.NumbersFree`: no number of a result is a name.
* `Program.ReturnsTyped`: no operand of a return is of type `void`.

## Main results

* `Realizes.revises`: the listing of a function is the revised function.
* `parse_text_iff`: when a printed text is read and printed as it is.
-/

namespace Midend

open Source

/-! ### Listings have no positions -/

namespace Program

theorem getElem?_funcs_listing (p : Program) {f : FuncId} (hf : f < p.funcs.size) :
    p.listing.funcs[f]? = some (p.funcSyntax (p.func f)) := by
  simp [listing, func, hf]

/-- No instruction of a function goes by a number that is the name of a parameter or an instruction. -/
def NumbersFree (p : Program) (f : FuncId) : Prop :=
  ∀ i ∈ p.funcInstrs f, (p.instr i).name = "" → (p.instr i).ty.isVoid = false →
    toString (p.instr i).id ∉ (p.func f).params.map (fun a => (p.params.get a).name) ∧
      toString (p.instr i).id ∉ (p.funcInstrs f).map fun d => (p.instr d).name

/-- No return of a function has an operand of type `void`. -/
def ReturnsTyped (p : Program) (f : FuncId) : Prop :=
  ∀ i ∈ p.funcInstrs f, (p.instr i).op = .ret →
    ∀ v, some v ∈ (p.instr i).operands → (p.typeOf v).isVoid = false

instance (p : Program) (f : FuncId) : Decidable (p.NumbersFree f) :=
  inferInstanceAs (Decidable (∀ i ∈ p.funcInstrs f, _ → _ → _ ∧ _))

instance (p : Program) (f : FuncId) : Decidable (p.ReturnsTyped f) :=
  decidable_of_iff (∀ i ∈ p.funcInstrs f, (p.instr i).op = .ret →
    ∀ v ∈ (p.instr i).operands.filterMap id, (p.typeOf v).isVoid = false) (by simp [ReturnsTyped])

theorem instrs_funcSyntax (p : Program) (f : FuncId) :
    (p.funcSyntax (p.func f)).instrs = (p.funcInstrs f).map p.instrSyntax := by
  rw [FuncSyntax.instrs, funcSyntax, funcInstrs, List.flatMap_map, List.map_flatMap]
  rfl

theorem bare_instrSyntax (p : Program) (id : InstrId) : (p.instrSyntax id).bare = p.instrSyntax id := by
  have hargs : (p.instrSyntax id).args.map Operand.bare = (p.instrSyntax id).args := by
    simp only [instrSyntax, List.map_filterMap, Option.map_map]
    rfl
  have htargets : (p.instrSyntax id).targets.map Target.bare = (p.instrSyntax id).targets := by
    simp only [instrSyntax, List.map_map]
    rfl
  rw [InstrSyntax.bare, hargs, htargets]
  rfl

theorem bare_blockSyntax (p : Program) (b : Block) : (p.blockSyntax b).bare = p.blockSyntax b := by
  simp [blockSyntax, BlockSyntax.bare, bare_instrSyntax]

theorem bare_funcSyntax (p : Program) (f : Func) : (p.funcSyntax f).bare = p.funcSyntax f := by
  simp [funcSyntax, FuncSyntax.bare, ParamSyntax.bare, bare_blockSyntax]

theorem bare_listing (p : Program) : p.listing.bare = p.listing := by
  simp [listing, ProgramSyntax.bare, bare_funcSyntax]

end Program

namespace Source

/-! ### Names stand for what they name -/

theorem map_eq_of_forall₂ {α β γ : Type} {R : α → β → Prop} {g : α → γ} {k : β → γ} {l : List α}
    {l' : List β} (h : List.Forall₂ R l l') (hR : ∀ a b, R a b → g a = k b) : l.map g = l'.map k := by
  induction h with
  | nil => rfl
  | cons hab _ ih => rw [List.map_cons, List.map_cons, hR _ _ hab, ih]

theorem name_of_findGlobal? {p : Program} {n : String} {g : GlobalId} (h : p.findGlobal? n = some g) :
    (p.globals.get g).name = n := by
  obtain ⟨hg, hname, -⟩ := Array.findIdx?_eq_some_iff_getElem.mp h
  rw [Table.get, Array.getD_eq_getD_getElem?, Array.getElem?_eq_getElem hg]
  exact of_decide_eq_true hname

theorem name_of_findBlock? {p : Program} {f : FuncId} {n : String} {b : BlockRef}
    (h : p.findBlock? f n = some b) : (p.block b).name = n := by
  obtain ⟨k, hk, rfl⟩ := Option.map_eq_some_iff.mp h
  obtain ⟨hlt, hname, -⟩ := Array.findIdx?_eq_some_iff_getElem.mp hk
  rw [Program.block, Array.getD_eq_getD_getElem?, Array.getElem?_eq_getElem hlt]
  exact of_decide_eq_true hname

/-- The instructions of listed blocks. -/
theorem sitesFrom_blockSyntax (p : Program) (k n : Nat) (bs : List BlockSyntax) :
    sitesFrom k ((blocksOf k n bs).map p.blockSyntax) =
      ((sitesFrom k bs).zipIdx n).map fun e => (e.1.1, p.instrSyntax e.2) := by
  induction bs generalizing k n with
  | nil => rfl
  | cons b bs ih =>
    have hblock : ((List.range' n b.instrs.length).map p.instrSyntax).map (k, ·) =
        ((b.instrs.map (k, ·)).zipIdx n).map fun e => (e.1.1, p.instrSyntax e.2) := by
      apply List.ext_getElem
      · simp
      · intro j hj hj'
        simp
    rw [blocksOf, List.map_cons, sitesFrom, sitesFrom, List.zipIdx_append, List.map_append, ih,
      List.length_map, ← hblock]
    rfl

namespace Realizes

variable {p : Program} {f : FuncId} {fn : FuncSyntax} {pbase ibase : Nat}
  (h : Realizes p f fn pbase ibase) (hvalues : fn.valueNames.Nodup)

include h hvalues

/-- A name stands for the value that has it. -/
theorem formOf_eq_of_find? {n : String} {v : Value} (hfind : (fn.names pbase ibase).find? n = some v) :
    p.formOf v = .value n ∧ (n, p.typeOf v) ∈ fn.typings := by
  have hkeys : ((fn.names pbase ibase).map Prod.fst).Nodup := by
    rw [fn.map_fst_names]
    exact hvalues
  have hmem := (Names.find?_eq_some_iff hkeys).mp hfind
  cases v with
  | const c => exact absurd hfind (fn.find?_names_ne_const hvalues c)
  | global g => simp [FuncSyntax.names, paramNames, resultNames] at hmem
  | param d =>
    obtain ⟨j, a, rfl, ha, rfl⟩ := fn.mem_names_param.mp hmem
    have hparam := h.params j a ha
    refine ⟨?_, List.mem_append_left _ (List.mem_map.mpr ⟨a, List.mem_of_getElem? ha, ?_⟩)⟩
    · rw [Program.formOf, hparam]
    · rw [Program.typeOf, hparam]
  | instr d =>
    obtain ⟨j, x, rfl, hx, hdef⟩ := fn.mem_names_instr.mp hmem
    obtain ⟨k, hsite⟩ := exists_site hx
    obtain ⟨-, -, hname, hty⟩ := h.instr_of_site hsite
    have hne : x.name ≠ "" ∧ x.name = n := by
      unfold InstrSyntax.defines at hdef
      split at hdef
      · cases hdef
      · next hne => exact ⟨hne, Option.some.inj hdef⟩
    refine ⟨?_, List.mem_append_right _ (List.mem_filterMap.mpr ⟨x, List.mem_of_getElem? hx, ?_⟩)⟩
    · rw [Program.formOf, Instr.givenName, hname, if_neg hne.1, hne.2]
    · rw [hdef, Program.typeOf, hty]
      rfl

/-- An operand stands for a value that is written like it, and of the type of the operand. -/
theorem formOf_eq {a : Operand} {literal : Ty} {v : Value}
    (ha : a.Denotes p (fn.names pbase ibase) literal v) :
    p.formOf v = a.form.wrapped literal ∧ fn.Types literal a.form (p.typeOf v) := by
  obtain ⟨pos, form⟩ := a
  cases form with
  | value n => exact h.formOf_eq_of_find? hvalues ha
  | global n =>
    obtain ⟨g, hg, rfl⟩ := ha
    refine ⟨?_, rfl⟩
    rw [Program.formOf, name_of_findGlobal? hg]
    rfl
  | literal x =>
    obtain ⟨c, -, rfl, hc⟩ := ha
    refine ⟨?_, ?_⟩
    · rw [Program.formOf, hc]
      rfl
    · change p.typeOf (.const c) = literal
      rw [Program.typeOf, hc]
      rfl

/-- **The listing of an instruction is the revised instruction.** -/
theorem instrSyntax_eq {j k : Nat} {x : InstrSyntax} (hsite : fn.sites[j]? = some (k, x)) :
    p.instrSyntax (ibase + j) =
      x.revised (j + 1) (p.firstOperandType (p.instr (ibase + j))) := by
  obtain ⟨ts, vs, hinstr, htargets, hargs⟩ := h.instrs j k x hsite
  have hforms : x.args.zipIdx.map (fun e => (⟨default, e.1.form.wrapped (x.literalType e.2)⟩ : Operand)) =
      vs.map fun v => ⟨default, p.formOf v⟩ :=
    map_eq_of_forall₂ hargs fun e v he => by rw [(h.formOf_eq hvalues he).1]
  have hlabels : x.targets.map Target.bare =
      ts.map fun b => (⟨default, (p.block b).name⟩ : Target) :=
    map_eq_of_forall₂ htargets fun t b hb => by rw [name_of_findBlock? hb]; rfl
  have hops : (p.instr (ibase + j)).operands = vs.map some := by rw [hinstr]
  have hargs' := Program.args_instrSyntax hops
  have hgiven : (p.instr (ibase + j)).givenName = if x.name = "" then toString (j + 1) else x.name := by
    rw [hinstr]
    rfl
  have hfields : (p.instr (ibase + j)).op = x.op ∧ (p.instr (ibase + j)).ty = x.ty ∧
      (p.instr (ibase + j)).elem = x.elem ∧ (p.instr (ibase + j)).callee = x.callee ∧
      (p.instr (ibase + j)).targets = ts := by
    rw [hinstr]
    exact ⟨rfl, rfl, rfl, rfl, rfl⟩
  obtain ⟨hop, hty, helem, hcallee, hts⟩ := hfields
  unfold Program.instrSyntax at hargs' ⊢
  unfold InstrSyntax.revised
  dsimp only at hargs' ⊢
  rw [hargs', hforms, hlabels, ← hgiven, hop, hty, helem, hcallee, hts]

/-- The type of what is returned is that of the value. -/
theorem returns_firstOperandType {j k : Nat} {x : InstrSyntax} (hsite : fn.sites[j]? = some (k, x))
    (hop : x.op = .ret) : fn.Returns x (p.firstOperandType (p.instr (ibase + j))) := by
  obtain ⟨ts, vs, hinstr, -, hargs⟩ := h.instrs j k x hsite
  rw [Program.firstOperandType, hinstr]
  cases hx : x.args with
  | nil =>
    rw [hx] at hargs
    rw [List.forall₂_nil_left_iff.mp hargs, FuncSyntax.returns_of_nil hx]
    rfl
  | cons a rest =>
    rw [hx, InstrSyntax.Denotes, List.zipIdx_cons] at hargs
    obtain ⟨v, vs', ha, -, rfl⟩ := List.forall₂_cons_left_iff.mp hargs
    have hliteral : x.literalType 0 = x.elem := by rw [InstrSyntax.literalType, hop]
    have htypes := (h.formOf_eq hvalues ha).2
    dsimp only at htypes
    rw [hliteral] at htypes
    exact (FuncSyntax.returns_of_cons hx).mpr htypes

omit hvalues in
/-- The instructions of the listing, with the positions of their blocks. -/
theorem sites_funcSyntax : (p.funcSyntax (p.func f)).sites =
    (fn.sites.zipIdx ibase).map fun e => (e.1.1, p.instrSyntax e.2) := by
  rw [FuncSyntax.sites, Program.funcSyntax, h.func]
  exact sitesFrom_blockSyntax p 0 ibase fn.blocks

/-- **The listing of a function is the revised function.** -/
theorem revises : (p.funcSyntax (p.func f)).Revises fn where
  name := by
    rw [h.func]
    rfl
  ret := by
    rw [h.func]
    rfl
  params := by
    rw [Program.funcSyntax, h.func]
    apply List.ext_getElem
    · simp [FuncSyntax.toFunc]
    · intro j hj hj'
      rw [List.length_map] at hj'
      have hparam := h.params j _ (List.getElem?_eq_getElem hj')
      simp [FuncSyntax.toFunc, hparam, ParamSyntax.bare]
  labels := by
    rw [FuncSyntax.labels, Program.funcSyntax, h.func, List.map_map, FuncSyntax.labels, ← map_name_blocksOf 0 ibase]
    rfl
  length := by rw [h.sites_funcSyntax, List.length_map, List.length_zipIdx]
  sites j k x hx := by
    refine ⟨p.instrSyntax (ibase + j), _, ?_, ?_, h.returns_firstOperandType hvalues hx⟩
    · rw [h.sites_funcSyntax, List.getElem?_map, List.getElem?_zipIdx, hx]
      rfl
    · exact (p.bare_instrSyntax _).trans (h.instrSyntax_eq hvalues hx)

omit hvalues in
theorem mem_funcInstrs {j k : Nat} {x : InstrSyntax} (hsite : fn.sites[j]? = some (k, x)) :
    ibase + j ∈ p.funcInstrs f := by
  obtain ⟨hj, -⟩ := List.getElem?_eq_some_iff.mp hsite
  rw [h.funcInstrs, List.mem_range'_1]
  exact ⟨Nat.le_add_right _ _, Nat.add_lt_add_left (fn.length_sites ▸ hj) _⟩

/-- The names of the values of a function are those of the text. -/
theorem mem_valueNames_iff {n : String} (hn : n ≠ "") : n ∈ fn.valueNames ↔
    n ∈ (p.func f).params.map (fun a => (p.params.get a).name) ∨
      n ∈ (p.funcInstrs f).map fun d => (p.instr d).name := by
  have hparams : (p.func f).params.map (fun a => (p.params.get a).name) = fn.params.map (·.name) := by
    rw [← (h.revises hvalues).paramNames_eq, Program.funcSyntax, List.map_map]
    rfl
  have hresults : (p.funcInstrs f).map (fun d => (p.instr d).name) = fn.instrs.map (·.name) :=
    map_eq_of_forall₂ h.conveys fun _ _ hconveys => hconveys.name
  rw [hparams, hresults, FuncSyntax.valueNames, List.mem_append, List.mem_filterMap, List.mem_map (l := fn.instrs)]
  refine or_congr_right (exists_congr fun x => and_congr_right fun _ => ?_)
  unfold InstrSyntax.defines
  split
  · next hname => simp [hname, hn.symm]
  · simp

theorem numbersFree_iff : p.NumbersFree f ↔ fn.NumbersFree := by
  constructor
  · intro hfree j x hx hname hvoid
    obtain ⟨k, hsite⟩ := exists_site hx
    obtain ⟨hid, -, hname', hty⟩ := h.instr_of_site hsite
    have hfresh := hfree _ (h.mem_funcInstrs hsite) (hname'.trans hname) (hty ▸ hvoid)
    rw [hid, ← not_or] at hfresh
    rwa [h.mem_valueNames_iff hvalues (by simp)]
  · intro hfree i hi hname hvoid
    obtain ⟨j, k, x, rfl, hsite⟩ := h.exists_of_mem hi
    obtain ⟨hid, -, hname', hty⟩ := h.instr_of_site hsite
    have hfresh := hfree j x (getElem?_instrs_of_site hsite) (hname' ▸ hname) (hty ▸ hvoid)
    rw [h.mem_valueNames_iff hvalues (by simp)] at hfresh
    rwa [hid, ← not_or]

/-- What is returned has a type, said on the listing. -/
theorem returnsTyped_iff (hfn : fn.Writable) : p.ReturnsTyped f ↔
    ∀ x ∈ (p.funcSyntax (p.func f)).instrs, x.op = .ret → x.args ≠ [] → x.elem ≠ .void := by
  rw [p.instrs_funcSyntax, List.forall_mem_map]
  refine forall₂_congr fun i hi => ?_
  obtain ⟨j, k, x, rfl, hsite⟩ := h.exists_of_mem hi
  obtain ⟨ts, vs, hinstr, -, hargs⟩ := h.instrs j k x hsite
  have hwritable := hfn.of_mem_instrs (List.mem_of_getElem? (getElem?_instrs_of_site hsite))
  have hops : (p.instr (ibase + j)).operands = vs.map some := by rw [hinstr]
  have hop : (p.instr (ibase + j)).op = x.op := (h.instr_of_site hsite).2.1
  refine imp_congr_right fun hret => ?_
  have hnamed := (h.returns_firstOperandType hvalues hsite (hop.symm.trans hret)).named hfn hwritable
  have hlength := hwritable.length_args_le (hop.symm.trans hret)
  have helem : (p.instrSyntax (ibase + j)).elem = p.firstOperandType (p.instr (ibase + j)) := if_pos hret
  rw [← hargs.length_eq] at hlength
  rw [helem, Program.args_instrSyntax hops, hops]
  rw [Program.firstOperandType, hops] at hnamed ⊢
  cases vs with
  | nil => simp
  | cons v vs =>
    have hvs : vs = [] := by simpa using hlength
    subst hvs
    have hvoid : (p.typeOf v).isVoid = true ↔ p.typeOf v = .void := Parser.isVoid_iff_of_parse hnamed
    simp [← hvoid]

end Realizes

theorem TokenStream.Proper.of_mem {l : List Token} {rest : TokenStream} (h : (l ++ rest).Proper) :
    ∀ t ∈ l, t.Proper := by
  induction l with
  | nil => simp
  | cons t l ih => exact List.forall_mem_cons.mpr ⟨h.1, ih h.2⟩

/-- **The listing of a program is the revised text.** -/
theorem Represents.revises {p : Program} {s : ProgramSyntax} (h : Represents p s) (hres : s.Resolves) :
    p.listing.Revises s where
  globals := by
    rw [Program.listing, h.globals, List.map_map]
    exact List.map_id s.globals
  length := by
    rw [Program.listing, List.length_map, Array.length_toList, h.size]
  funcs f fn hfn := by
    obtain ⟨pbase, ibase, hrealizes⟩ := h.funcs f fn hfn
    obtain ⟨hf, -⟩ := List.getElem?_eq_some_iff.mp hfn
    refine ⟨_, p.getElem?_funcs_listing (h.size ▸ hf), hrealizes.revises ?_⟩
    exact (hres.each fn (List.mem_of_getElem? hfn)).values

end Source

/-! ### Reading again -/

open Source.Grammar

section Again

variable {name : String} {src : ByteArray} {p q : Program} {s : ProgramSyntax} {t : String}

theorem exists_writable_of_parse (h : Program.parse name src = .ok p) :
    ∃ s, s.Writable ∧ s.Resolves ∧ Represents p s := by
  obtain ⟨s, l, pos, -, htokens, hl, hres, hrep⟩ := exists_syntax_of_parse h
  have hproper : (l ++ TokenStream.eof pos).Proper := htokens ▸ proper_ofSymbols _
  exact ⟨s, writable_of_isProgram hl hproper.of_mem, hres, hrep⟩

theorem Program.exists_text_of_parse (h : Program.parse name src = .ok p) : ∃ t, p.text = .ok t :=
  (wellFormed_of_parse h).1.toCoherent.exists_text

theorem Program.eq_text_of_listing_eq {u : String} (ht : p.text = .ok t) (hu : q.text = .ok u)
    (hlisting : q.listing = p.listing) : u = t := by
  rw [← String.toList_inj, toList_text hu, toList_text ht, hlisting]

variable (hs : s.Writable) (hres : s.Resolves) (hrep : Represents p s) (ht : p.text = .ok t)

include hs hres hrep

/-- What is returned has a type, said on the listing. -/
theorem Source.Represents.returnsTyped_iff : (∀ f < p.funcs.size, p.ReturnsTyped f) ↔
    ∀ fn ∈ p.listing.funcs, ∀ b ∈ fn.blocks, ∀ i ∈ b.instrs,
      i.op = .ret → i.args ≠ [] → i.elem ≠ .void := by
  have heach : ∀ f < p.funcs.size, p.ReturnsTyped f ↔
      ∀ x ∈ (p.funcSyntax (p.func f)).instrs, x.op = .ret → x.args ≠ [] → x.elem ≠ .void := by
    intro f hf
    obtain ⟨fn, pbase, ibase, hfn, hrealizes⟩ := hrep.exists_realizes hf
    have hmem := List.mem_of_getElem? hfn
    exact hrealizes.returnsTyped_iff (hres.each fn hmem).values (hs.funcs fn hmem)
  constructor
  · intro h fn hfn b hb i hi
    obtain ⟨f, hf⟩ := List.mem_iff_getElem?.mp hfn
    have hlt : f < p.funcs.size := by
      obtain ⟨hlt, -⟩ := List.getElem?_eq_some_iff.mp hf
      simpa [Program.listing] using hlt
    rw [p.getElem?_funcs_listing hlt] at hf
    cases hf
    exact (heach f hlt).mp (h f hlt) i (List.mem_flatMap.mpr ⟨b, hb, hi⟩)
  · intro h f hf
    refine (heach f hf).mpr fun i hi => ?_
    obtain ⟨b, hb, hi⟩ := List.mem_flatMap.mp hi
    exact h _ (List.mem_of_getElem? (p.getElem?_funcs_listing hf)) b hb i hi

omit hs in
/-- No number is a name, said on the text. -/
theorem Source.Represents.numbersFree_iff : (∀ f < p.funcs.size, p.NumbersFree f) ↔
    ∀ fn ∈ s.funcs, fn.NumbersFree := by
  constructor
  · intro h fn hfn
    obtain ⟨f, hf⟩ := List.mem_iff_getElem?.mp hfn
    obtain ⟨pbase, ibase, hrealizes⟩ := hrep.funcs f fn hf
    obtain ⟨hlt, -⟩ := List.getElem?_eq_some_iff.mp hf
    exact (hrealizes.numbersFree_iff (hres.each fn hfn).values).mp (h f (hrep.size ▸ hlt))
  · intro h f hf
    obtain ⟨fn, pbase, ibase, hfn, hrealizes⟩ := hrep.exists_realizes hf
    have hmem := List.mem_of_getElem? hfn
    exact (hrealizes.numbersFree_iff (hres.each fn hmem).values).mpr (h fn hmem)

include ht

/-- The tokens of the text of a program spell its listing. -/
theorem exists_tokens : ∃ l pos,
    Source.TokenStream.ofSymbols (Text.Symbol.ofBytes t.toUTF8) = l ++ TokenStream.eof pos ∧
      Spelled p.listing.pieces l := by
  have hrevises := hrep.revises hres
  rw [Text.Symbol.ofBytes_toUTF8]
  refine exists_spelled (Program.toList_text ht) ((hrevises.writable hs).legible fun fn' hfn' => ?_)
  obtain ⟨fn, hfn, hfunc⟩ := hrevises.exists_of_mem hfn'
  exact hfunc.explicit (hs.funcs fn hfn)

/-- The text of a program in which returns have a type says what the listing says. -/
theorem exists_syntax_of_text (hreturns : ∀ f < p.funcs.size, p.ReturnsTyped f) : ∃ s' l pos,
    Source.TokenStream.ofSymbols (Text.Symbol.ofBytes t.toUTF8) = l ++ TokenStream.eof pos ∧
      IsProgram l s' ∧ s'.Revises s := by
  have hrevises := hrep.revises hres
  obtain ⟨l, pos, htokens, hspelled⟩ := exists_tokens hs hres hrep ht
  obtain ⟨s', hl, hbare⟩ := (hrevises.writable hs).exists_isProgram
    ((hrep.returnsTyped_iff hs hres).mp hreturns) hspelled
  exact ⟨s', l, pos, htokens, hl, hrevises.of_bare_eq hbare⟩

/-- If the text of a program is accepted, no number is a name and returns have a type. -/
theorem conditions_of_parse_text {name' : String} (hq : Program.parse name' t.toUTF8 = .ok q) :
    ∀ f < p.funcs.size, p.NumbersFree f ∧ p.ReturnsTyped f := by
  obtain ⟨s', l', pos', hparse, htokens', hl', hres', -⟩ := exists_syntax_of_parse hq
  have hreturns : ∀ f < p.funcs.size, p.ReturnsTyped f := by
    obtain ⟨l, pos, htokens, hspelled⟩ := exists_tokens hs hres hrep ht
    rw [htokens] at htokens'
    rw [← append_eof_inj htokens'] at hl'
    exact (hrep.returnsTyped_iff hs hres).mpr (((hrep.revises hres).writable hs).elem_ne_void hspelled hl')
  -- What was read is the revised text, since a text is read in one way only.
  obtain ⟨s₀, l, pos, htokens, hl, hrevises⟩ := exists_syntax_of_text hs hres hrep ht hreturns
  have hparse₀ := parse_eq_ok_iff_isProgram.mpr
    ⟨l, pos, htokens, hl, hrevises.globals ▸ hres.globals⟩
  rw [hparse] at hparse₀
  cases hparse₀
  have hfree := (hrep.numbersFree_iff hres).mpr ((hrevises.resolves_iff hs hres).mp hres')
  exact fun f hf => ⟨hfree f hf, hreturns f hf⟩

/-- If no number is a name and returns have a type, the text of a program is accepted and says the
same again. -/
theorem exists_parse_text (name' : String)
    (h : ∀ f < p.funcs.size, p.NumbersFree f ∧ p.ReturnsTyped f) :
    ∃ q, Program.parse name' t.toUTF8 = .ok q ∧ q.text = .ok t := by
  obtain ⟨s', l, pos, htokens, hl, hrevises⟩ :=
    exists_syntax_of_text hs hres hrep ht fun f hf => (h f hf).2
  have hres' : s'.Resolves :=
    (hrevises.resolves_iff hs hres).mpr ((hrep.numbersFree_iff hres).mp fun f hf => (h f hf).1)
  obtain ⟨q, hq, hrep'⟩ := exists_parse_of_syntax htokens hl hres' name'
  have hlisting : q.listing = p.listing := by
    have hagain := hrevises.trans hs hres' (hrep'.revises hres')
    have hbare := (hrep.revises hres).bare_eq hres hagain
    rwa [q.bare_listing, p.bare_listing] at hbare
  obtain ⟨u, hu⟩ := Program.exists_text_of_parse hq
  exact ⟨q, hq, Program.eq_text_of_listing_eq ht hu hlisting ▸ hu⟩

end Again

/-- **When a text that was printed is read again.**  The text of an accepted program is accepted, and its
program has the same text, just if in every function no result goes by a number that is the name of a
parameter or of an instruction, and no return has an operand of type `void`. -/
theorem parse_text_iff {name : String} {src : ByteArray} {p : Program} (h : Program.parse name src = .ok p)
    (name' : String) : ∃ t, p.text = .ok t ∧
      ((∃ q, Program.parse name' t.toUTF8 = .ok q ∧ q.text = .ok t) ↔
        ∀ f < p.funcs.size, p.NumbersFree f ∧ p.ReturnsTyped f) := by
  obtain ⟨s, hs, hres, hrep⟩ := exists_writable_of_parse h
  obtain ⟨t, ht⟩ := Program.exists_text_of_parse h
  refine ⟨t, ht, ?_, exists_parse_text hs hres hrep ht name'⟩
  rintro ⟨q, hq, -⟩
  exact conditions_of_parse_text hs hres hrep ht hq

/-- A text with a result without a name, whose number is that of no parameter. -/
def numbered : ByteArray :=
  "func @f(%2: i8) : i8 {
L: add i8 %2, 300
    %x = call i8 @g(%2, -1)
    ret i8 %x
}
".toUTF8

/-- A text with a result without a name, whose number is that of its parameter. -/
def clashing : ByteArray :=
  "func @f(%1: i8) : i8 {
L: add i8 %1, 300
    ret i8 %1
}
".toUTF8

/-- A text in which a parameter of type `void` is returned. -/
def hollow : ByteArray := "func @f(%a: void) : i8 {
L: ret i8 %a
}
".toUTF8

theorem parse_text_iff_numbered :
    (∃ p t, Program.parse "m" numbered = .ok p ∧ p.text = .ok t ∧
      (∀ f < p.funcs.size, p.NumbersFree f ∧ p.ReturnsTyped f) ∧
        ∃ q, Program.parse "m" t.toUTF8 = .ok q ∧ q.text = .ok t) ∧
    ∀ src ∈ [clashing, hollow], ∃ p t, Program.parse "m" src = .ok p ∧ p.text = .ok t ∧
      (¬∀ f < p.funcs.size, p.NumbersFree f ∧ p.ReturnsTyped f) ∧
        ¬∃ q, Program.parse "m" t.toUTF8 = .ok q ∧ q.text = .ok t := by
  constructor
  · obtain ⟨p, hp, hholds⟩ : ∃ p, Program.parse "m" numbered = .ok p ∧
        decide (∀ f < p.funcs.size, p.NumbersFree f ∧ p.ReturnsTyped f) = true :=
      Program.exists_of_parse (by decide +kernel)
    obtain ⟨t, ht, hiff⟩ := parse_text_iff hp "m"
    have hconditions := of_decide_eq_true hholds
    exact ⟨p, t, hp, ht, hconditions, hiff.mpr hconditions⟩
  · intro src hsrc
    obtain ⟨p, hp, hfails⟩ : ∃ p, Program.parse "m" src = .ok p ∧
        (!decide (∀ f < p.funcs.size, p.NumbersFree f ∧ p.ReturnsTyped f)) = true := by
      apply Program.exists_of_parse
      simp only [List.mem_cons, List.not_mem_nil, or_false] at hsrc
      rcases hsrc with rfl | rfl
      · decide +kernel
      · decide +kernel
    obtain ⟨t, ht, hiff⟩ := parse_text_iff hp "m"
    have hconditions : ¬∀ f < p.funcs.size, p.NumbersFree f ∧ p.ReturnsTyped f := by simpa using hfails
    exact ⟨p, t, hp, ht, hconditions, mt hiff.mp hconditions⟩

end Midend
