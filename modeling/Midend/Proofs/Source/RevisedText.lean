import Mathlib.Data.List.Nodup
import Midend.Proofs.Source.AcceptedPrograms
import Midend.Proofs.Source.Rereading

/-!
# Revised texts

Printing a program revises the text that it came from: a result without a name goes by its number, an
integer is cut down to its type, and a return has the type of its operand.  Revising what is revised
changes nothing.  A revised text says something just if no number is taken for a name.

## Main definitions

* `InstrSyntax.revised`: the revised instruction.
* `FuncSyntax.Revises`: a function is another one, revised.
* `FuncSyntax.NumbersFree`: no number of a result is a name.

## Main results

* `FuncSyntax.Revises.trans`: revising twice is revising once.
* `FuncSyntax.Revises.bare_eq`: there is one revision only.
* `FuncSyntax.Revises.nodup_valueNames_iff`: when the names of a revised function are distinct.
* `FuncSyntax.Revises.resolves`: the names of a revised function resolve.
-/

namespace Midend.Source

/-! ### Revised instructions -/

/-- The form with integers cut down to a type. -/
def OperandForm.wrapped (ty : Ty) : OperandForm → OperandForm
  | .literal v => .literal (ty.wrap v)
  | form => form

/-- The instruction with number `n`, where `ty` is the type of what a return has as its operand. -/
def InstrSyntax.revised (i : InstrSyntax) (n : Nat) (ty : Ty) : InstrSyntax :=
  { i with
    pos := default
    name := if i.ty.isVoid then "" else if i.name = "" then toString n else i.name
    elem := if i.op = .ret then ty else i.elem
    args := i.args.zipIdx.map fun e => ⟨default, e.1.form.wrapped (i.literalType e.2)⟩
    targets := i.targets.map Target.bare }

theorem OperandForm.wrapped_wrapped (ty : Ty) (form : OperandForm) :
    (form.wrapped ty).wrapped ty = form.wrapped ty := by
  cases form with
  | literal v => exact congrArg OperandForm.literal (ty.wrap_wrap v)
  | value n => rfl
  | global n => rfl

theorem OperandForm.wrapped_eq_value {ty : Ty} {form : OperandForm} {n : String} :
    form.wrapped ty = .value n ↔ form = .value n := by
  cases form <;> simp [wrapped]

/-- Positions do not matter. -/
theorem InstrSyntax.revised_bare (x : InstrSyntax) (n : Nat) (ty : Ty) :
    x.bare.revised n ty = x.revised n ty := by
  have hargs : (x.args.map Operand.bare).zipIdx.map
        (fun e => (⟨default, e.1.form.wrapped (x.literalType e.2)⟩ : Operand)) =
      x.args.zipIdx.map fun e => ⟨default, e.1.form.wrapped (x.literalType e.2)⟩ := by
    rw [List.zipIdx_map, List.map_map]
    rfl
  have htargets : (x.targets.map Target.bare).map Target.bare = x.targets.map Target.bare := by
    rw [List.map_map]
    rfl
  unfold InstrSyntax.revised
  change InstrSyntax.mk _ _ _ _ _ _ ((x.args.map Operand.bare).zipIdx.map
    fun e => (⟨default, e.1.form.wrapped (x.literalType e.2)⟩ : Operand)) _ = _
  rw [hargs]
  exact congrArg (InstrSyntax.mk _ _ _ _ _ _ _) htargets

/-- Cutting down an integer a second time, in the revised instruction, changes nothing. -/
theorem InstrSyntax.wrapped_literalType_revised {x : InstrSyntax} {n : Nat} {ty : Ty} {form : OperandForm}
    (h : x.op = .ret → ∀ v, form = .literal v → ty = x.elem) (k : Nat) :
    (form.wrapped (x.literalType k)).wrapped ((x.revised n ty).literalType k) =
      form.wrapped (x.literalType k) := by
  by_cases hret : x.op = .ret
  · -- The integer of a return now has the type of the operand, which is its own.
    cases form with
    | literal v =>
      have hty : (x.revised n ty).literalType k = x.literalType k := by
        simp [literalType, revised, hret, h hret v rfl]
      rw [hty, OperandForm.wrapped_wrapped]
    | value n => rfl
    | global n => rfl
  · have hty : (x.revised n ty).literalType k = x.literalType k := by
      simp only [literalType, revised, if_neg hret]
    rw [hty, OperandForm.wrapped_wrapped]

/-- What is revised stays as it is. -/
theorem InstrSyntax.revised_revised {x : InstrSyntax} {n : Nat} {ty ty' : Ty}
    (h : x.op = .ret → ty' = ty ∧ ∀ a ∈ x.args, ∀ v, a.form = .literal v → ty = x.elem) :
    (x.revised n ty).revised n ty' = x.revised n ty := by
  have hname : ((x.revised n ty).revised n ty').name = (x.revised n ty).name := by
    dsimp only [revised]
    split
    · rfl
    · split <;> simp
  have helem : ((x.revised n ty).revised n ty').elem = (x.revised n ty).elem := by
    dsimp only [revised]
    split
    · next hret => exact (h hret).1
    · rfl
  have htargets : ((x.revised n ty).revised n ty').targets = (x.revised n ty).targets := by
    dsimp only [revised]
    rw [List.map_map]
    rfl
  have hargs : ((x.revised n ty).revised n ty').args = (x.revised n ty).args := by
    change (x.args.zipIdx.map fun e => (⟨default, e.1.form.wrapped (x.literalType e.2)⟩ : Operand)).zipIdx.map
      (fun e => (⟨default, e.1.form.wrapped ((x.revised n ty).literalType e.2)⟩ : Operand)) = _
    apply List.ext_getElem
    · simp [revised]
    · intro k hk hk'
      simp only [List.getElem_map, List.getElem_zipIdx, revised, Nat.zero_add]
      exact congrArg _ (wrapped_literalType_revised (fun hret => (h hret).2 _ (List.getElem_mem _)) k)
  calc (x.revised n ty).revised n ty'
      = { x.revised n ty with
          name := ((x.revised n ty).revised n ty').name
          elem := ((x.revised n ty).revised n ty').elem
          args := ((x.revised n ty).revised n ty').args
          targets := ((x.revised n ty).revised n ty').targets } := rfl
    _ = x.revised n ty := by rw [hname, helem, hargs, htargets]

/-- The instruction says what another one says, revised. -/
def InstrSyntax.Revises (x' x : InstrSyntax) (n : Nat) (ty : Ty) : Prop := x'.bare = x.revised n ty

namespace InstrSyntax.Revises

variable {x' x : InstrSyntax} {n : Nat} {ty : Ty} (h : x'.Revises x n ty)

include h

theorem op : x'.op = x.op := (InstrSyntax.mk.inj h).2.1

theorem type : x'.ty = x.ty := (InstrSyntax.mk.inj h).2.2.2.1

theorem callee : x'.callee = x.callee := (InstrSyntax.mk.inj h).2.2.2.2.2.1

theorem name : x'.name = if x.ty.isVoid then "" else if x.name = "" then toString n else x.name :=
  congrArg InstrSyntax.name h

theorem elem : x'.elem = if x.op = .ret then ty else x.elem := congrArg InstrSyntax.elem h

theorem elem_of_ne (hop : x.op ≠ .ret) : x'.elem = x.elem := h.elem.trans (if_neg hop)

theorem forms : x'.args.map (·.form) = x.args.zipIdx.map fun e => e.1.form.wrapped (x.literalType e.2) := by
  have hargs := congrArg (fun i => i.args.map (·.form)) h
  simpa [bare, revised, Operand.bare, Function.comp_def] using hargs

theorem labels : x'.targets.map (·.name) = x.targets.map (·.name) := by
  have htargets := congrArg (fun i => i.targets.map (·.name)) h
  simpa [bare, revised, Target.bare, Function.comp_def] using htargets

theorem length_args : x'.args.length = x.args.length := by
  simpa using congrArg List.length h.forms

theorem length_targets : x'.targets.length = x.targets.length := by
  simpa using congrArg List.length h.labels

/-- Every operand is an operand of the other instruction, cut down. -/
theorem exists_arg {a : Operand} (ha : a ∈ x'.args) :
    ∃ b ∈ x.args, ∃ t, a.form = b.form.wrapped t := by
  have hform : a.form ∈ x'.args.map (·.form) := List.mem_map_of_mem ha
  rw [h.forms, List.mem_map] at hform
  obtain ⟨e, he, hform⟩ := hform
  exact ⟨e.1, List.fst_mem_of_mem_zipIdx he, _, hform.symm⟩

theorem exists_target {t : Target} (ht : t ∈ x'.targets) : ∃ u ∈ x.targets, u.name = t.name := by
  have hname : t.name ∈ x'.targets.map (·.name) := List.mem_map_of_mem ht
  rw [h.labels] at hname
  exact List.mem_map.mp hname

/-- The result has its name or else its number. -/
theorem defines_iff (hx : x.Writable) {m : String} :
    x'.defines = some m ↔
      x.defines = some m ∨ x.name = "" ∧ x.ty.isVoid = false ∧ toString n = m := by
  unfold defines
  rw [h.name]
  cases hvoid : x.ty.isVoid with
  | true =>
    have hname := hx.unnamed (hx.isVoid_iff.mp hvoid)
    simp [hname]
  | false =>
    by_cases hname : x.name = "" <;> simp [hname]

theorem fits (hx : x.Fits) (hty : x.op = .ret → x.args = [] → ty = .void) : x'.Fits := by
  have hargs := h.length_args
  have htargets := h.length_targets
  cases hx with
  | arith hop helem hcallee hlength hnone =>
    have hne : x.op ≠ .ret := by
      intro hret
      rw [hret] at hop
      exact absurd hop (by decide)
    exact .arith (h.op ▸ hop) ((h.elem_of_ne hne).trans helem) (h.callee.trans hcallee)
      (hargs.trans hlength) (by simpa [hnone] using htargets)
  | cmp hop hi1 hcallee hlength hnone =>
    exact .cmp (h.op.trans hop) (h.type.trans hi1) (h.callee.trans hcallee) (hargs.trans hlength)
      (by simpa [hnone] using htargets)
  | alloca hop hptr hcallee hargs' hnone =>
    exact .alloca (h.op.trans hop) (h.type.trans hptr) (h.callee.trans hcallee)
      (by simpa [hargs'] using hargs) (by simpa [hnone] using htargets)
  | load hop helem hcallee hlength hnone =>
    exact .load (h.op.trans hop) ((h.elem_of_ne (by simp [hop])).trans helem) (h.callee.trans hcallee)
      (hargs.trans hlength) (by simpa [hnone] using htargets)
  | store hop hvoid hcallee hlength hnone =>
    exact .store (h.op.trans hop) (h.type.trans hvoid) (h.callee.trans hcallee) (hargs.trans hlength)
      (by simpa [hnone] using htargets)
  | call hop helem hcallee hnone =>
    exact .call (h.op.trans hop) ((h.elem_of_ne (by simp [hop])).trans helem) (h.callee ▸ hcallee)
      (by simpa [hnone] using htargets)
  | br hop hvoid helem hcallee hargs' hlength =>
    exact .br (h.op.trans hop) (h.type.trans hvoid) ((h.elem_of_ne (by simp [hop])).trans helem)
      (h.callee.trans hcallee) (by simpa [hargs'] using hargs) (htargets.trans hlength)
  | condbr hop hvoid helem hcallee hargs' hlength =>
    exact .condbr (h.op.trans hop) (h.type.trans hvoid) ((h.elem_of_ne (by simp [hop])).trans helem)
      (h.callee.trans hcallee) (hargs.trans hargs') (htargets.trans hlength)
  | retVoid hop hvoid helem hcallee hargs' hnone =>
    exact .retVoid (h.op.trans hop) (h.type.trans hvoid)
      ((h.elem.trans (if_pos hop)).trans (hty hop hargs')) (h.callee.trans hcallee)
      (by simpa [hargs'] using hargs) (by simpa [hnone] using htargets)
  | ret hop hvoid hcallee hlength hnone =>
    exact .ret (h.op.trans hop) (h.type.trans hvoid) (h.callee.trans hcallee) (hargs.trans hlength)
      (by simpa [hnone] using htargets)

/-- A text can say the revised instruction too. -/
theorem writable (hx : x.Writable) (hty : x.op = .ret → ty.Named ∧ (x.args = [] → ty = .void)) :
    x'.Writable where
  fits := h.fits hx.fits fun hret => (hty hret).2
  unnamed hvoid := by
    rw [h.name, if_pos (hx.isVoid_iff.mpr (h.type.symm.trans hvoid))]
  name hne := by
    rw [h.name] at hne ⊢
    split
    · next hvoid => rw [if_pos hvoid] at hne; exact absurd rfl hne
    · split
      · exact .inr (isInteger_repr n)
      · next hname => exact hx.name hname
  ty := h.type ▸ hx.ty
  elem := by
    rw [h.elem]
    split
    · next hret => exact (hty hret).1
    · exact hx.elem
  args a ha := by
    obtain ⟨b, hb, t, hform⟩ := h.exists_arg ha
    rw [hform]
    have hwritable := hx.args b hb
    cases hb' : b.form <;> rw [hb'] at hwritable <;> exact hwritable
  targets t ht := by
    obtain ⟨u, hu, hname⟩ := h.exists_target ht
    exact hname ▸ hx.targets u hu

/-- Revising a second time, with the same number and the same type of the operand. -/
theorem trans {x'' : InstrSyntax} {ty' : Ty} (h' : x''.Revises x' n ty')
    (hty : x.op = .ret → ty' = ty ∧ ∀ a ∈ x.args, ∀ v, a.form = .literal v → ty = x.elem) :
    x''.Revises x n ty := by
  calc x''.bare
      = x'.revised n ty' := h'
    _ = x'.bare.revised n ty' := (x'.revised_bare n ty').symm
    _ = (x.revised n ty).revised n ty' := by rw [h]
    _ = x.revised n ty := revised_revised hty

end InstrSyntax.Revises

theorem InstrSyntax.Writable.length_args_le {x : InstrSyntax} (hx : x.Writable) (hop : x.op = .ret) :
    x.args.length ≤ 1 := by
  cases hx.fits <;> simp_all

/-! ### Revised functions -/

theorem nodup_filterMap_iff {α β : Type} {f : α → Option β} {l : List α} : (l.filterMap f).Nodup ↔
    ∀ (j m : Nat) (a b : α) (n : β), l[j]? = some a → l[m]? = some b → f a = some n → f b = some n →
      j = m := by
  rw [List.Nodup, List.pairwise_filterMap, List.pairwise_iff_getElem]
  constructor
  · intro h j m a b n ha hb hn hn'
    obtain ⟨hj, rfl⟩ := List.getElem?_eq_some_iff.mp ha
    obtain ⟨hm, rfl⟩ := List.getElem?_eq_some_iff.mp hb
    rcases Nat.lt_trichotomy j m with hlt | rfl | hlt
    · exact absurd rfl (h j m hj hm hlt n hn n hn')
    · rfl
    · exact absurd rfl (h m j hm hj hlt n hn' n hn)
  · rintro h j m hj hm hlt n hn n' hn' rfl
    exact Nat.ne_of_lt hlt
      (h j m _ _ n (List.getElem?_eq_getElem hj) (List.getElem?_eq_getElem hm) hn hn')

namespace FuncSyntax

/-- The names of the values of a function, with their types. -/
def typings (fn : FuncSyntax) : List (String × Ty) :=
  fn.params.map (fun a => (a.name, a.ty)) ++ fn.instrs.filterMap fun i => i.defines.map (·, i.ty)

/-- The type of an operand, where `literal` is the type of integers. -/
def Types (fn : FuncSyntax) (literal : Ty) : OperandForm → Ty → Prop
  | .value n, ty => (n, ty) ∈ fn.typings
  | .global _, ty => ty = .ptr
  | .literal _, ty => ty = literal

/-- The type of what an instruction returns, `void` if that is nothing. -/
def Returns (fn : FuncSyntax) (x : InstrSyntax) (ty : Ty) : Prop :=
  match x.args with
  | [] => ty = .void
  | a :: _ => fn.Types x.elem a.form ty

/-- The function is another one, revised. -/
structure Revises (fn' fn : FuncSyntax) : Prop where
  /-- It has the name of the other one. -/
  name : fn'.name = fn.name
  /-- It has the result of the other one. -/
  ret : fn'.ret = fn.ret
  /-- It has the parameters of the other one. -/
  params : fn'.params.map ParamSyntax.bare = fn.params.map ParamSyntax.bare
  /-- It has the labels of the other one. -/
  labels : fn'.labels = fn.labels
  /-- It has no more instructions than the other one. -/
  length : fn'.sites.length = fn.sites.length
  /-- It has the instructions of the other one, revised, in the same blocks. -/
  sites : ∀ j k x, fn.sites[j]? = some (k, x) → ∃ (x' : InstrSyntax) (ty : Ty),
    fn'.sites[j]? = some (k, x') ∧ x'.Revises x (j + 1) ty ∧ (x.op = .ret → fn.Returns x ty)

/-- No number of an instruction that goes by its number is the name of a value. -/
def NumbersFree (fn : FuncSyntax) : Prop :=
  ∀ j x, fn.instrs[j]? = some x → x.name = "" → x.ty.isVoid = false → toString (j + 1) ∉ fn.valueNames

theorem map_fst_typings (fn : FuncSyntax) : fn.typings.map Prod.fst = fn.valueNames := by
  simp [typings, valueNames, List.map_filterMap, Function.comp_def]

theorem Writable.of_mem_instrs {fn : FuncSyntax} (h : fn.Writable) {x : InstrSyntax} (hx : x ∈ fn.instrs) :
    x.Writable := by
  obtain ⟨b, hb, hx⟩ := List.mem_flatMap.mp hx
  exact h.instrs b hb x hx

theorem mem_valueNames_of_defines {fn : FuncSyntax} {j : Nat} {x : InstrSyntax} {n : String}
    (hx : fn.instrs[j]? = some x) (hn : x.defines = some n) : n ∈ fn.valueNames :=
  List.mem_append_right _ (List.mem_filterMap.mpr ⟨x, List.mem_of_getElem? hx, hn⟩)

theorem Types.unique {fn : FuncSyntax} {literal ty ty' : Ty} {form : OperandForm}
    (hvalues : fn.valueNames.Nodup) (h : fn.Types literal form ty) (h' : fn.Types literal form ty') :
    ty = ty' := by
  cases form with
  | value n =>
    rw [← fn.map_fst_typings] at hvalues
    exact congrArg Prod.snd (List.inj_on_of_nodup_map hvalues h h' rfl)
  | global n => exact Eq.trans h (Eq.symm h')
  | literal v => exact Eq.trans h (Eq.symm h')

theorem Types.named {fn : FuncSyntax} {literal ty : Ty} {form : OperandForm} (hfn : fn.Writable)
    (hliteral : literal.Named) (h : fn.Types literal form ty) : ty.Named := by
  cases form with
  | value n =>
    rcases List.mem_append.mp h with h | h
    · obtain ⟨a, ha, hty⟩ := List.mem_map.mp h
      cases hty
      exact (hfn.params a ha).2
    · obtain ⟨i, hi, hty⟩ := List.mem_filterMap.mp h
      obtain ⟨m, -, hty⟩ := Option.map_eq_some_iff.mp hty
      cases hty
      exact (hfn.of_mem_instrs hi).ty
  | global n => exact (show ty = .ptr from h) ▸ named_ptr
  | literal v => exact (show ty = literal from h) ▸ hliteral

section Returns

variable {fn : FuncSyntax} {x : InstrSyntax} {ty : Ty}

theorem returns_of_nil (hargs : x.args = []) : fn.Returns x ty ↔ ty = .void := by
  rw [Returns, hargs]

theorem returns_of_cons {a : Operand} {rest : List Operand} (hargs : x.args = a :: rest) :
    fn.Returns x ty ↔ fn.Types x.elem a.form ty := by
  rw [Returns, hargs]

theorem Returns.named (hfn : fn.Writable) (hx : x.Writable) (h : fn.Returns x ty) : ty.Named := by
  cases hargs : x.args with
  | nil => exact (returns_of_nil hargs).mp h ▸ named_void
  | cons a rest => exact ((returns_of_cons hargs).mp h).named hfn hx.elem

theorem Returns.unique {ty' : Ty} (hvalues : fn.valueNames.Nodup) (h : fn.Returns x ty)
    (h' : fn.Returns x ty') : ty = ty' := by
  cases hargs : x.args with
  | nil => exact ((returns_of_nil hargs).mp h).trans ((returns_of_nil hargs).mp h').symm
  | cons a rest => exact ((returns_of_cons hargs).mp h).unique hvalues ((returns_of_cons hargs).mp h')

/-- An integer that is returned has the type of the return. -/
theorem Returns.eq_elem (hlength : x.args.length ≤ 1) (h : fn.Returns x ty) {a : Operand}
    (ha : a ∈ x.args) {v : Int64} (hform : a.form = .literal v) : ty = x.elem := by
  obtain ⟨c, hargs⟩ := List.length_eq_one_iff.mp (Nat.le_antisymm hlength (List.length_pos_of_mem ha))
  rw [hargs, List.mem_singleton] at ha
  rw [returns_of_cons hargs, ← ha, hform] at h
  exact h

end Returns

namespace Revises

variable {fn' fn : FuncSyntax} (h : fn'.Revises fn)

include h

theorem paramNames_eq : fn'.params.map (·.name) = fn.params.map (·.name) := by
  have hnames := congrArg (List.map ParamSyntax.name) h.params
  simpa [ParamSyntax.bare, Function.comp_def] using hnames

theorem paramTypings_eq : fn'.params.map (fun a => (a.name, a.ty)) = fn.params.map fun a => (a.name, a.ty) := by
  have htypings := congrArg (List.map fun a => (a.name, a.ty)) h.params
  simpa [ParamSyntax.bare, Function.comp_def] using htypings

/-- Every instruction is one of the other function, revised. -/
theorem exists_of_site {j k : Nat} {x' : InstrSyntax} (hsite : fn'.sites[j]? = some (k, x')) :
    ∃ (x : InstrSyntax) (ty : Ty), fn.sites[j]? = some (k, x) ∧ x'.Revises x (j + 1) ty ∧
      (x.op = .ret → fn.Returns x ty) := by
  obtain ⟨hj, -⟩ := List.getElem?_eq_some_iff.mp hsite
  obtain ⟨⟨m, x⟩, hsite'⟩ : ∃ e, fn.sites[j]? = some e :=
    ⟨_, List.getElem?_eq_getElem (h.length ▸ hj)⟩
  obtain ⟨y', ty, hy', hrevises, hty⟩ := h.sites j m x hsite'
  rw [hsite] at hy'
  cases hy'
  exact ⟨x, ty, hsite', hrevises, hty⟩

theorem exists_of_instr {j : Nat} {x' : InstrSyntax} (hx' : fn'.instrs[j]? = some x') :
    ∃ (x : InstrSyntax) (ty : Ty), fn.instrs[j]? = some x ∧ x'.Revises x (j + 1) ty ∧
      (x.op = .ret → fn.Returns x ty) := by
  obtain ⟨k, hsite⟩ := exists_site hx'
  obtain ⟨x, ty, hx, hrevises, hty⟩ := h.exists_of_site hsite
  exact ⟨x, ty, getElem?_instrs_of_site hx, hrevises, hty⟩

theorem exists_revision {j : Nat} {x : InstrSyntax} (hx : fn.instrs[j]? = some x) :
    ∃ (x' : InstrSyntax) (ty : Ty), fn'.instrs[j]? = some x' ∧ x'.Revises x (j + 1) ty := by
  obtain ⟨k, hsite⟩ := exists_site hx
  obtain ⟨x', ty, hx', hrevises, -⟩ := h.sites j k x hsite
  exact ⟨x', ty, getElem?_instrs_of_site hx', hrevises⟩

variable (hfn : fn.Writable)

include hfn

/-- A name stays the name of a value of its type. -/
theorem typings_subset : fn.typings ⊆ fn'.typings := by
  rintro ⟨n, ty⟩ hmem
  rcases List.mem_append.mp hmem with hmem | hmem
  · exact List.mem_append_left _ (h.paramTypings_eq ▸ hmem)
  · obtain ⟨x, hx, hty⟩ := List.mem_filterMap.mp hmem
    obtain ⟨m, hm, heq⟩ := Option.map_eq_some_iff.mp hty
    cases heq
    obtain ⟨j, hj⟩ := List.mem_iff_getElem?.mp hx
    obtain ⟨x', t, hx', hrevises⟩ := h.exists_revision hj
    refine List.mem_append_right _ (List.mem_filterMap.mpr ⟨x', List.mem_of_getElem? hx', ?_⟩)
    rw [(hrevises.defines_iff (hfn.of_mem_instrs hx)).mpr (.inl hm), hrevises.type]
    rfl

theorem valueNames_subset : fn.valueNames ⊆ fn'.valueNames := by
  rw [← fn.map_fst_typings, ← fn'.map_fst_typings]
  exact List.map_subset _ (h.typings_subset hfn)

/-- The names of results are the numbers and the names that were there. -/
theorem mem_defines {j : Nat} {x' : InstrSyntax} {n : String} (hx' : fn'.instrs[j]? = some x')
    (hn : x'.defines = some n) : ∃ x, fn.instrs[j]? = some x ∧
      (x.defines = some n ∨ x.name = "" ∧ x.ty.isVoid = false ∧ toString (j + 1) = n) := by
  obtain ⟨x, ty, hx, hrevises, -⟩ := h.exists_of_instr hx'
  exact ⟨x, hx, (hrevises.defines_iff (hfn.of_mem_instrs (List.mem_of_getElem? hx))).mp hn⟩

/-- If the names of a revised function are distinct, no number was taken for a name. -/
theorem numbersFree (hvalues : fn'.valueNames.Nodup) : fn.NumbersFree := by
  intro j x hx hname hvoid hmem
  obtain ⟨-, hresults, hapart⟩ := List.nodup_append.mp hvalues
  obtain ⟨x', ty, hx', hrevises⟩ := h.exists_revision hx
  have hdefines : x'.defines = some (toString (j + 1)) :=
    (hrevises.defines_iff (hfn.of_mem_instrs (List.mem_of_getElem? hx))).mpr (.inr ⟨hname, hvoid, rfl⟩)
  rcases List.mem_append.mp hmem with hmem | hmem
  · rw [← h.paramNames_eq] at hmem
    exact hapart _ hmem _ (List.mem_filterMap.mpr ⟨x', List.mem_of_getElem? hx', hdefines⟩) rfl
  · obtain ⟨y, hy, hdefines'⟩ := List.mem_filterMap.mp hmem
    obtain ⟨m, hm⟩ := List.mem_iff_getElem?.mp hy
    obtain ⟨y', t, hy', hrevises'⟩ := h.exists_revision hm
    have hsame : j = m := nodup_filterMap_iff.mp hresults j m x' y' _ hx' hy' hdefines
      ((hrevises'.defines_iff (hfn.of_mem_instrs hy)).mpr (.inl hdefines'))
    -- The one instruction has no name, the other one has.
    subst hsame
    rw [hx] at hm
    cases hm
    simp [InstrSyntax.defines, hname] at hdefines'

/-- Two results do not get the same name. -/
theorem nodup_results (hvalues : fn.valueNames.Nodup) (hfree : fn.NumbersFree) :
    (fn'.instrs.filterMap InstrSyntax.defines).Nodup := by
  obtain ⟨-, hresults, -⟩ := List.nodup_append.mp hvalues
  refine nodup_filterMap_iff.mpr fun j m x' y' n hx' hy' hn hn' => ?_
  obtain ⟨x, hx, hnamed | ⟨hname, hvoid, hnum⟩⟩ := h.mem_defines hfn hx' hn
  · obtain ⟨y, hy, hnamed' | ⟨hname, hvoid, hnum⟩⟩ := h.mem_defines hfn hy' hn'
    · exact nodup_filterMap_iff.mp hresults j m x y n hx hy hnamed hnamed'
    · exact absurd (hnum ▸ mem_valueNames_of_defines hx hnamed) (hfree m y hy hname hvoid)
  · obtain ⟨y, hy, hnamed | ⟨-, -, hnum'⟩⟩ := h.mem_defines hfn hy' hn'
    · exact absurd (hnum ▸ mem_valueNames_of_defines hy hnamed) (hfree j x hx hname hvoid)
    · have hread := congrArg Text.magnitude (hnum.trans hnum'.symm)
      exact Nat.succ.inj ((magnitude_repr _).symm.trans (hread.trans (magnitude_repr _)))

/-- **The names of a revised function are distinct just if no number is taken for a name.** -/
theorem nodup_valueNames_iff (hvalues : fn.valueNames.Nodup) : fn'.valueNames.Nodup ↔ fn.NumbersFree := by
  refine ⟨h.numbersFree hfn, fun hfree => ?_⟩
  obtain ⟨hparams, -, hapart⟩ := List.nodup_append.mp hvalues
  refine List.nodup_append.mpr ⟨h.paramNames_eq ▸ hparams, h.nodup_results hfn hvalues hfree, ?_⟩
  intro a ha b hb
  rw [h.paramNames_eq] at ha
  obtain ⟨x', hx', hdefines⟩ := List.mem_filterMap.mp hb
  obtain ⟨j, hj⟩ := List.mem_iff_getElem?.mp hx'
  obtain ⟨x, hx, hdefines' | ⟨hname, hvoid, hnum⟩⟩ := h.mem_defines hfn hj hdefines
  · exact hapart a ha b (List.mem_filterMap.mpr ⟨x, List.mem_of_getElem? hx, hdefines'⟩)
  · rintro rfl
    exact hfree j x hx hname hvoid (hnum ▸ List.mem_append_left _ ha)

/-- The blocks of a revised function are in order. -/
theorem ordered {globals : List String} (hres : fn.Resolves globals) (hfree : fn.NumbersFree) :
    ∀ b ∈ fn'.blocks, b.Ordered := by
  have hjumps : ∀ b ∈ fn'.blocks, b.instrs.Pairwise fun i _ => i.op.isTerminator = false := by
    have hbefore := (pairwise_sitesFrom (R := fun i _ => i.op.isTerminator = false) 0 fn.blocks).mpr
      fun b hb => (hres.ordered b hb).jumps
    rw [← pairwise_sitesFrom 0, List.pairwise_iff_getElem] at *
    intro j m hj hm hlt hsame
    obtain ⟨x, ty, hx, hrevises, -⟩ := h.exists_of_site (List.getElem?_eq_getElem hj)
    obtain ⟨y, ty', hy, -⟩ := h.exists_of_site (List.getElem?_eq_getElem hm)
    obtain ⟨hj', hx⟩ := List.getElem?_eq_some_iff.mp hx
    obtain ⟨hm', hy⟩ := List.getElem?_eq_some_iff.mp hy
    have hterm : fn.sites[j].1 = fn.sites[m].1 → fn.sites[j].2.op.isTerminator = false :=
      hbefore j m hj' hm' hlt
    rw [hx, hy] at hterm
    exact (congrArg Opcode.isTerminator hrevises.op).trans (hterm hsame)
  have hdefs : ∀ b ∈ fn'.blocks,
      (∀ i ∈ b.instrs, ¬i.Uses i) ∧ b.instrs.Pairwise fun i d => ¬i.Uses d := by
    have hbefore := (ordered_iff_sites fn).mp fun b hb =>
      ⟨(hres.ordered b hb).itself, (hres.ordered b hb).later⟩
    rw [ordered_iff_sites]
    rintro j m ⟨k, x'⟩ ⟨k', y'⟩ hx' hy' hsame ⟨a, ha, n, hform, hdefines⟩
    obtain ⟨x, ty, hx, hrevises, -⟩ := h.exists_of_site hx'
    obtain ⟨y, ty', hy, hrevises', -⟩ := h.exists_of_site hy'
    obtain ⟨c, hc, t, hform'⟩ := hrevises.exists_arg ha
    have hvalue := OperandForm.wrapped_eq_value.mp (hform'.symm.trans hform)
    have hmem := List.mem_of_getElem? (getElem?_instrs_of_site hy)
    rcases (hrevises'.defines_iff (hfn.of_mem_instrs hmem)).mp hdefines with hnamed | ⟨hname, hvoid, hnum⟩
    · exact hbefore j m _ _ hx hy hsame ⟨c, hc, n, hvalue, hnamed⟩
    · -- The operand was defined before there were numbers, so it is none of them.
      have hknown := hres.operands x (List.mem_of_getElem? (getElem?_instrs_of_site hx)) c hc
      rw [Operand.Known, hvalue] at hknown
      exact absurd (hnum ▸ hknown) (hfree m y (getElem?_instrs_of_site hy) hname hvoid)
  exact fun b hb => ⟨hjumps b hb, (hdefs b hb).1, (hdefs b hb).2⟩

/-- **The names of a revised function resolve if they did before and no number is taken for a name.** -/
theorem resolves {globals : List String} (hres : fn.Resolves globals) (hfree : fn.NumbersFree) :
    fn'.Resolves globals where
  values := (h.nodup_valueNames_iff hfn hres.values).mpr hfree
  labels := h.labels ▸ hres.labels
  ordered := h.ordered hfn hres hfree
  operands x' hx' a ha := by
    obtain ⟨j, hj⟩ := List.mem_iff_getElem?.mp hx'
    obtain ⟨x, ty, hx, hrevises, -⟩ := h.exists_of_instr hj
    obtain ⟨c, hc, t, hform⟩ := hrevises.exists_arg ha
    have hknown := hres.operands x (List.mem_of_getElem? hx) c hc
    unfold Operand.Known at hknown ⊢
    rw [hform]
    cases hvalue : c.form with
    | value n =>
      rw [hvalue] at hknown
      exact h.valueNames_subset hfn hknown
    | global n =>
      rw [hvalue] at hknown
      exact hknown
    | literal v => trivial
  targets x' hx' t ht := by
    obtain ⟨j, hj⟩ := List.mem_iff_getElem?.mp hx'
    obtain ⟨x, ty, hx, hrevises, -⟩ := h.exists_of_instr hj
    obtain ⟨u, hu, hname⟩ := hrevises.exists_target ht
    rw [h.labels, ← hname]
    exact hres.targets x (List.mem_of_getElem? hx) u hu

/-- A text can say the revised function too. -/
theorem writable : fn'.Writable where
  name := h.name ▸ hfn.name
  ret := h.ret ▸ hfn.ret
  params a ha := by
    have hmem : (a.name, a.ty) ∈ fn'.params.map fun a => (a.name, a.ty) := List.mem_map_of_mem ha
    rw [h.paramTypings_eq] at hmem
    obtain ⟨c, hc, heq⟩ := List.mem_map.mp hmem
    obtain ⟨hname, hty⟩ := Prod.mk.inj heq
    rw [← hname, ← hty]
    exact hfn.params c hc
  labels b hb := by
    have hmem : b.name ∈ fn'.labels := List.mem_map_of_mem hb
    rw [h.labels] at hmem
    obtain ⟨c, hc, hname⟩ := List.mem_map.mp hmem
    exact hname ▸ hfn.labels c hc
  instrs b hb x' hx' := by
    obtain ⟨j, hj⟩ := List.mem_iff_getElem?.mp (List.mem_flatMap.mpr ⟨b, hb, hx'⟩ : x' ∈ fn'.instrs)
    obtain ⟨x, ty, hx, hrevises, hreturns⟩ := h.exists_of_instr hj
    have hwritable := hfn.of_mem_instrs (List.mem_of_getElem? hx)
    exact hrevises.writable hwritable fun hret =>
      ⟨(hreturns hret).named hfn hwritable, fun hargs => (returns_of_nil hargs).mp (hreturns hret)⟩

/-- All results of a revised function have names. -/
theorem explicit : fn'.Explicit := by
  intro b hb x' hx' hty hname
  obtain ⟨j, hj⟩ := List.mem_iff_getElem?.mp (List.mem_flatMap.mpr ⟨b, hb, hx'⟩ : x' ∈ fn'.instrs)
  obtain ⟨x, ty, hx, hrevises, -⟩ := h.exists_of_instr hj
  have hwritable := hfn.of_mem_instrs (List.mem_of_getElem? hx)
  have hvoid : ¬x.ty.isVoid := fun hvoid => hty (hrevises.type.trans (hwritable.isVoid_iff.mp hvoid))
  rw [hrevises.name, if_neg hvoid] at hname
  split at hname
  · simp at hname
  · contradiction

/-- The type of what is returned is now the type of the return. -/
theorem returns {x' x : InstrSyntax} {n : Nat} {ty : Ty} (hrevises : x'.Revises x n ty)
    (hop : x.op = .ret) (hty : fn.Returns x ty) : fn'.Returns x' ty := by
  have hforms := hrevises.forms
  have helem : x'.elem = ty := hrevises.elem.trans (if_pos hop)
  cases hargs : x.args with
  | nil =>
    rw [hargs] at hforms
    exact (returns_of_nil (List.map_eq_nil_iff.mp hforms)).mpr ((returns_of_nil hargs).mp hty)
  | cons a rest =>
    rw [hargs, List.zipIdx_cons, List.map_cons] at hforms
    obtain ⟨a', rest', hargs', hform, -⟩ := List.map_eq_cons_iff.mp hforms
    rw [returns_of_cons hargs] at hty
    rw [returns_of_cons hargs', hform]
    dsimp only
    cases hvalue : a.form with
    | value m =>
      rw [hvalue] at hty
      exact h.typings_subset hfn hty
    | global m =>
      rw [hvalue] at hty
      exact hty
    | literal v => exact helem.symm

/-- **Revising twice is revising once.** -/
theorem trans {fn'' : FuncSyntax} (h' : fn''.Revises fn') (hvalues : fn'.valueNames.Nodup) :
    fn''.Revises fn where
  name := h'.name.trans h.name
  ret := h'.ret.trans h.ret
  params := h'.params.trans h.params
  labels := h'.labels.trans h.labels
  length := h'.length.trans h.length
  sites j k x hx := by
    obtain ⟨x', ty, hx', hrevises, hreturns⟩ := h.sites j k x hx
    obtain ⟨x'', ty', hx'', hrevises', hreturns'⟩ := h'.sites j k x' hx'
    have hwritable := hfn.of_mem_instrs (List.mem_of_getElem? (getElem?_instrs_of_site hx))
    refine ⟨x'', ty, hx'', hrevises.trans hrevises' fun hop => ⟨?_, fun a ha v hform => ?_⟩, hreturns⟩
    · exact (hreturns' (hrevises.op.trans hop)).unique hvalues (h.returns hfn hrevises hop (hreturns hop))
    · exact (hreturns hop).eq_elem (hwritable.length_args_le hop) ha hform

end Revises

end FuncSyntax

/-! ### One revision only -/

/-- A block has the instructions that stand at its position. -/
theorem filterMap_sitesFrom {k m : Nat} {bs : List BlockSyntax} {b : BlockSyntax} (hb : bs[m]? = some b) :
    (sitesFrom k bs).filterMap (fun e => if e.1 = k + m then some e.2 else none) = b.instrs := by
  induction bs generalizing k m with
  | nil => simp at hb
  | cons c bs ih =>
    rw [sitesFrom, List.filterMap_append, List.filterMap_map]
    cases m with
    | zero =>
      cases hb
      have hlater : (sitesFrom (k + 1) bs).filterMap (fun e => if e.1 = k then some e.2 else none) = [] := by
        refine List.filterMap_eq_nil_iff.mpr fun e he => if_neg ?_
        exact Nat.ne_of_gt (le_of_mem_sitesFrom he)
      simp [hlater]
    | succ m =>
      have hfirst : c.instrs.filterMap ((fun e : Nat × InstrSyntax =>
          if e.1 = k + (m + 1) then some e.2 else none) ∘ (k, ·)) = [] := by
        refine List.filterMap_eq_nil_iff.mpr fun i _ => if_neg ?_
        exact Nat.ne_of_lt (Nat.lt_add_of_pos_right (Nat.succ_pos m))
      rw [hfirst, List.nil_append, ← ih (k := k + 1) hb, Nat.add_assoc, Nat.add_comm 1 m]

/-- Blocks are the same if their labels and their instructions are. -/
theorem blocks_eq_of_sitesFrom {bs bs' : List BlockSyntax} (hnames : bs.map (·.name) = bs'.map (·.name))
    (hpos : ∀ b ∈ bs, b.pos = default) (hpos' : ∀ b ∈ bs', b.pos = default)
    (hsites : sitesFrom 0 bs = sitesFrom 0 bs') : bs = bs' := by
  have hlength : bs.length = bs'.length := by simpa using congrArg List.length hnames
  apply List.ext_getElem hlength
  intro m hm hm'
  have hname : bs[m].name = bs'[m].name := by
    simpa [hm, hm'] using congrArg (·[m]?) hnames
  have hinstrs : bs[m].instrs = bs'[m].instrs := by
    rw [← filterMap_sitesFrom (k := 0) (List.getElem?_eq_getElem hm), hsites,
      filterMap_sitesFrom (List.getElem?_eq_getElem hm')]
  have hplace : bs[m].pos = bs'[m].pos :=
    (hpos _ (List.getElem_mem hm)).trans (hpos' _ (List.getElem_mem hm')).symm
  calc bs[m] = ⟨bs[m].pos, bs[m].name, bs[m].instrs⟩ := rfl
    _ = bs'[m] := by rw [hplace, hname, hinstrs]

theorem sitesFrom_map_bare (k : Nat) (bs : List BlockSyntax) :
    sitesFrom k (bs.map BlockSyntax.bare) = (sitesFrom k bs).map fun e => (e.1, e.2.bare) := by
  induction bs generalizing k with
  | nil => rfl
  | cons b bs ih => simp [sitesFrom, ih, BlockSyntax.bare, Function.comp_def]

theorem FuncSyntax.sites_bare (fn : FuncSyntax) : fn.bare.sites = fn.sites.map fun e => (e.1, e.2.bare) :=
  sitesFrom_map_bare 0 fn.blocks

theorem FuncSyntax.labels_bare (fn : FuncSyntax) : fn.bare.labels = fn.labels := by
  simp [labels, bare, BlockSyntax.bare, Function.comp_def]

namespace FuncSyntax.Revises

variable {fn' fn'' fn : FuncSyntax}

/-- Positions do not matter. -/
theorem of_bare_eq (h : fn'.Revises fn) (hbare : fn''.bare = fn'.bare) : fn''.Revises fn := by
  have hsites : fn''.sites.map (fun e => (e.1, e.2.bare)) = fn'.sites.map fun e => (e.1, e.2.bare) := by
    rw [← sites_bare, ← sites_bare, hbare]
  obtain ⟨-, hname, hret, hparams, -⟩ := FuncSyntax.mk.inj hbare
  refine ⟨hname.trans h.name, hret.trans h.ret, hparams.trans h.params, ?_, ?_, fun j k x hx => ?_⟩
  · rw [← fn''.labels_bare, hbare, fn'.labels_bare, h.labels]
  · simpa [h.length] using congrArg List.length hsites
  · obtain ⟨x', ty, hx', hrevises, hty⟩ := h.sites j k x hx
    have hsite := congrArg (·[j]?) hsites
    simp only [List.getElem?_map, hx', Option.map_some, Option.map_eq_some_iff] at hsite
    obtain ⟨⟨k', x''⟩, hx'', heq⟩ := hsite
    obtain ⟨rfl, hinstr⟩ := Prod.mk.inj heq
    exact ⟨x'', ty, hx'', Eq.trans hinstr hrevises, hty⟩

/-- **There is one revision only.** -/
theorem bare_eq (h : fn'.Revises fn) (hvalues : fn.valueNames.Nodup) (h' : fn''.Revises fn) :
    fn''.bare = fn'.bare := by
  have hsites : fn''.bare.sites = fn'.bare.sites := by
    rw [sites_bare, sites_bare]
    apply List.ext_getElem
    · simp [h.length, h'.length]
    · intro j hj hj'
      rw [List.length_map] at hj'
      obtain ⟨⟨k, x⟩, hsite⟩ : ∃ e, fn.sites[j]? = some e :=
        ⟨_, List.getElem?_eq_getElem (h.length ▸ hj')⟩
      obtain ⟨x', ty, hx', hrevises, hty⟩ := h.sites j k x hsite
      obtain ⟨x'', ty', hx'', hrevises', hty'⟩ := h'.sites j k x hsite
      obtain ⟨_, hget'⟩ := List.getElem?_eq_some_iff.mp hx'
      obtain ⟨_, hget''⟩ := List.getElem?_eq_some_iff.mp hx''
      rw [List.getElem_map, List.getElem_map, hget', hget'']
      refine congrArg (Prod.mk k) (Eq.trans hrevises' (Eq.trans ?_ (Eq.symm hrevises)))
      by_cases hop : x.op = .ret
      · rw [(hty hop).unique hvalues (hty' hop)]
      · simp only [InstrSyntax.revised, if_neg hop]
  have hblocks : fn''.bare.blocks = fn'.bare.blocks := by
    refine blocks_eq_of_sitesFrom ?_ ?_ ?_ hsites
    · exact fn''.labels_bare.trans (h'.labels.trans (h.labels.symm.trans fn'.labels_bare.symm))
    · simp [bare, BlockSyntax.bare]
    · simp [bare, BlockSyntax.bare]
  have hfields : ∀ g : FuncSyntax, g.bare = ⟨default, g.name, g.ret, g.params.map ParamSyntax.bare, g.bare.blocks⟩ :=
    fun _ => rfl
  rw [hfields fn'', hfields fn', hblocks, h.name, h'.name, h.ret, h'.ret, h.params, h'.params]

end FuncSyntax.Revises

/-! ### Revised programs -/

/-- The program is another one, revised. -/
structure ProgramSyntax.Revises (s' s : ProgramSyntax) : Prop where
  /-- It has the global variables of the other one. -/
  globals : s'.globals = s.globals
  /-- It has no more functions than the other one. -/
  length : s'.funcs.length = s.funcs.length
  /-- It has the functions of the other one, revised. -/
  funcs : ∀ (f : Nat) fn, s.funcs[f]? = some fn → ∃ fn', s'.funcs[f]? = some fn' ∧ fn'.Revises fn

namespace ProgramSyntax.Revises

variable {s s' s'' : ProgramSyntax} (h : s'.Revises s)

include h

/-- Every function is one of the other program, revised. -/
theorem exists_of_getElem? {f : Nat} {fn' : FuncSyntax} (hfn' : s'.funcs[f]? = some fn') :
    ∃ fn, s.funcs[f]? = some fn ∧ fn'.Revises fn := by
  obtain ⟨hf, -⟩ := List.getElem?_eq_some_iff.mp hfn'
  obtain ⟨fn, hfn⟩ : ∃ fn, s.funcs[f]? = some fn := ⟨_, List.getElem?_eq_getElem (h.length ▸ hf)⟩
  obtain ⟨fn'', hfn'', hrevises⟩ := h.funcs f fn hfn
  rw [hfn'] at hfn''
  cases hfn''
  exact ⟨fn, hfn, hrevises⟩

theorem exists_of_mem {fn' : FuncSyntax} (hfn' : fn' ∈ s'.funcs) : ∃ fn ∈ s.funcs, fn'.Revises fn := by
  obtain ⟨f, hf⟩ := List.mem_iff_getElem?.mp hfn'
  obtain ⟨fn, hfn, hrevises⟩ := h.exists_of_getElem? hf
  exact ⟨fn, List.mem_of_getElem? hfn, hrevises⟩

theorem names_eq : s'.funcs.map (·.name) = s.funcs.map (·.name) := by
  apply List.ext_getElem
  · simp [h.length]
  · intro f hf hf'
    rw [List.length_map] at hf
    obtain ⟨fn, hfn, hrevises⟩ := h.exists_of_getElem? (List.getElem?_eq_getElem hf)
    obtain ⟨_, hget⟩ := List.getElem?_eq_some_iff.mp hfn
    rw [List.getElem_map, List.getElem_map, hget]
    exact hrevises.name

theorem of_bare_eq (hbare : s''.bare = s'.bare) : s''.Revises s := by
  obtain ⟨hglobals, hfuncs⟩ := ProgramSyntax.mk.inj hbare
  refine ⟨hglobals.trans h.globals, ?_, fun f fn hfn => ?_⟩
  · simpa [h.length] using congrArg List.length hfuncs
  · obtain ⟨fn', hfn', hrevises⟩ := h.funcs f fn hfn
    have hfunc := congrArg (·[f]?) hfuncs
    simp only [List.getElem?_map, hfn', Option.map_some, Option.map_eq_some_iff] at hfunc
    obtain ⟨fn'', hfn'', hfunc⟩ := hfunc
    exact ⟨fn'', hfn'', hrevises.of_bare_eq hfunc⟩

theorem writable (hs : s.Writable) : s'.Writable where
  globals := h.globals ▸ hs.globals
  funcs fn' hfn' := by
    obtain ⟨fn, hfn, hrevises⟩ := h.exists_of_mem hfn'
    exact hrevises.writable (hs.funcs fn hfn)

/-- **The names of a revised program resolve just if no number is taken for a name.** -/
theorem resolves_iff (hs : s.Writable) (hres : s.Resolves) :
    s'.Resolves ↔ ∀ fn ∈ s.funcs, fn.NumbersFree := by
  constructor
  · intro hres' fn hfn
    obtain ⟨f, hf⟩ := List.mem_iff_getElem?.mp hfn
    obtain ⟨fn', hfn', hrevises⟩ := h.funcs f fn hf
    exact hrevises.numbersFree (hs.funcs fn hfn) (hres'.each fn' (List.mem_of_getElem? hfn')).values
  · intro hfree
    refine ⟨h.globals ▸ hres.globals, h.names_eq ▸ hres.funcs, fun fn' hfn' => ?_⟩
    obtain ⟨fn, hfn, hrevises⟩ := h.exists_of_mem hfn'
    rw [h.globals]
    exact hrevises.resolves (hs.funcs fn hfn) (hres.each fn hfn) (hfree fn hfn)

/-- Revising twice is revising once. -/
theorem trans (hs : s.Writable) (hres : s'.Resolves) (h' : s''.Revises s') : s''.Revises s := by
  refine ⟨h'.globals.trans h.globals, h'.length.trans h.length, fun f fn hfn => ?_⟩
  obtain ⟨fn', hfn', hrevises⟩ := h.funcs f fn hfn
  obtain ⟨fn'', hfn'', hrevises'⟩ := h'.funcs f fn' hfn'
  exact ⟨fn'', hfn'', hrevises.trans (hs.funcs fn (List.mem_of_getElem? hfn)) hrevises'
    (hres.each fn' (List.mem_of_getElem? hfn')).values⟩

/-- There is one revision only. -/
theorem bare_eq (hres : s.Resolves) (h' : s''.Revises s) : s''.bare = s'.bare := by
  have hfuncs : s''.funcs.map FuncSyntax.bare = s'.funcs.map FuncSyntax.bare := by
    apply List.ext_getElem
    · simp [h.length, h'.length]
    · intro f hf hf'
      rw [List.length_map] at hf'
      obtain ⟨fn, hfn, hrevises⟩ := h.exists_of_getElem? (List.getElem?_eq_getElem hf')
      obtain ⟨fn'', hfn'', hrevises'⟩ := h'.funcs f fn hfn
      obtain ⟨_, hget⟩ := List.getElem?_eq_some_iff.mp hfn''
      rw [List.getElem_map, List.getElem_map, hget]
      exact hrevises.bare_eq (hres.each fn (List.mem_of_getElem? hfn)).values hrevises'
  rw [bare, bare, hfuncs, h.globals, h'.globals]

end ProgramSyntax.Revises

end Midend.Source
