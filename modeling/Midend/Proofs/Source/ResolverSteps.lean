import Mathlib.Data.List.Forall2
import Midend.Proofs.Source.ResolverDrafts

/-!
# Steps of the resolution

When each step of the resolution of a function is accepted, and what it leaves.  The first steps fill
the draft of the function and fail only at a name that is there already, or behind a jump.  The last one
links the instructions of the draft: it fails at a name that is not there, and at a use before its
definition.

## Main definitions

* `Linkable`: the operands and targets of an instruction can be resolved.
* `InstrSyntax.Denotes`: the values that operands stand for.
* `Linked`: the program after linking.

## Main results

* `decides_resolveParams`, `decides_resolveBlocks`, `decides_resolveBodies`: filling the draft.
* `decides_resolveUses`: linking.
-/

namespace Midend.Source

/-! ### Distinct names -/

section Distinct

variable {α : Type} {l rest : List α} {a : α}

/-- One more element, which must be new. -/
theorem nodup_concat (hl : l.Nodup) (hfresh : a ∉ l) : (l ++ [a]).Nodup := by
  rw [List.nodup_append]
  refine ⟨hl, by simp, fun b hb c hc heq => hfresh ?_⟩
  rwa [← List.mem_singleton.mp hc, ← heq]

/-- Elements that are new one after another are distinct. -/
theorem nodup_append_cons : a ∉ l ∧ (l ++ [a] ++ rest).Nodup ↔ (l ++ a :: rest).Nodup := by
  rw [List.append_assoc, List.singleton_append]
  refine and_iff_right_of_imp fun hnodup hmem => ?_
  exact (List.nodup_append.mp hnodup).2.2 a hmem a List.mem_cons_self rfl

end Distinct

/-! ### Names -/

namespace Names

variable {names : Names} {name : String} {v : Value}

theorem find?_cons (e : String × Value) :
    find? (e :: names) name = if name = e.1 then some e.2 else find? names name := by
  by_cases h : name = e.1
  · rw [if_pos h, find?, List.lookup_cons, beq_iff_eq.mpr h]
  · rw [if_neg h, find?, List.lookup_cons, beq_eq_false_iff_ne.mpr h, find?]

theorem isSome_find? : (names.find? name).isSome ↔ name ∈ names.map Prod.fst := by
  induction names with
  | nil => simp [find?]
  | cons e names ih =>
    rw [find?_cons, List.map_cons, List.mem_cons, ← ih]
    by_cases h : name = e.1
    · simp [h]
    · rw [if_neg h]
      simp [h]

/-- With distinct names the order of the list does not matter. -/
theorem find?_eq_some_iff (hnames : (names.map Prod.fst).Nodup) :
    names.find? name = some v ↔ (name, v) ∈ names := by
  induction names with
  | nil => simp [find?]
  | cons e names ih =>
    obtain ⟨n, w⟩ := e
    rw [List.map_cons, List.nodup_cons] at hnames
    rw [find?_cons, List.mem_cons, ← ih hnames.2]
    by_cases h : name = n
    · subst h
      have hnot : find? names name ≠ some v := fun hfind =>
        hnames.1 (isSome_find?.mp (Option.isSome_of_eq_some hfind))
      rw [if_pos rfl]
      simp [hnot, eq_comm]
    · rw [if_neg h]
      simp [h]

end Names

/-! ### Checks -/

section Guard

variable {α β : Type} {p : Program} {D : Prop} {Q : α → Program → Prop}

/-- A check that rejects. -/
theorem Decides.guard {c : Prop} [Decidable c] {pos : Position} {reason : Reason}
    {k : β → Resolver α} {m : Resolver α} (hm : ¬c → Decides m p D Q) :
    Decides (if c then reject pos reason >>= k else m) p (¬c ∧ D) Q := by
  by_cases hc : c
  · rw [if_pos hc]
    refine ⟨fun a t hrun => ?_, fun h => absurd hc h.1⟩
    obtain ⟨_, _, hreject, -⟩ := bind_eq_ok.mp hrun
    exact (throw_eq_ok.mp hreject).elim
  · rw [if_neg hc]
    exact (hm hc).congr (by simp [hc])

end Guard

/-! ### Parameters, blocks and instructions -/

section Parts

variable {p : Program} {fn : FuncSyntax} {ps : List Param} {bs : List Block} {is : List Instr}
  {ls : Table Links} {names : Names}

theorem decides_resolveParams (l : List ParamSyntax) (hnames : (names.map Prod.fst).Nodup) :
    Decides (resolveParams p.funcs.size names l) (p.draft fn ps bs is ls)
      (names.map Prod.fst ++ l.map (·.name)).Nodup fun names' q =>
        names' = names ++ paramNames (p.params.size + ps.length) l ∧
          q = p.draft fn (ps ++ l.map fun a => ⟨a.name, a.ty⟩) bs is ls := by
  induction l generalizing names ps with
  | nil =>
    rw [resolveParams]
    refine (Decides.pure (ε := SourceError) ?_).congr (by simpa using hnames)
    simp [paramNames]
  | cons a rest ih =>
    rw [resolveParams]
    dsimp only
    have hadd : (modifyGet (·.addParam p.funcs.size a.name a.ty) : Resolver ParamId)
        (p.draft fn ps bs is ls) =
          .ok (p.params.size + ps.length, p.draft fn (ps ++ [⟨a.name, a.ty⟩]) bs is ls) :=
      congrArg Except.ok (Program.addParam_draft a.name a.ty)
    refine (Decides.guard fun hfresh => Decides.after hadd (ih ?_)).mono ?_ ?_
    · rw [Names.isSome_find?] at hfresh
      rw [List.map_append]
      exact nodup_concat hnames hfresh
    · rw [Names.isSome_find?, List.map_append]
      exact nodup_append_cons
    · rintro names' q - ⟨rfl, rfl⟩
      simp [paramNames, List.zipIdx_cons, Nat.add_assoc]

theorem decides_resolveBlocks (l : List BlockSyntax) (hbs : (bs.map (·.name)).Nodup) :
    Decides (resolveBlocks p.funcs.size l) (p.draft fn ps bs is ls)
      (bs.map (·.name) ++ l.map (·.name)).Nodup fun _ q =>
        q = p.draft fn ps (bs ++ bareBlocks bs.length l) is ls := by
  induction l generalizing bs with
  | nil =>
    rw [resolveBlocks]
    refine (Decides.pure (ε := SourceError) ?_).congr (by simpa using hbs)
    rw [bareBlocks, List.append_nil]
  | cons b rest ih =>
    rw [resolveBlocks]
    have hadd : (discard (modifyGet (·.addBlock p.funcs.size b.name)) : Resolver Unit)
        (p.draft fn ps bs is ls) =
          .ok ((), p.draft fn ps (bs ++ [{ id := bs.length, name := b.name }]) is ls) :=
      congrArg (fun r : BlockRef × Program => Except.ok ((), r.2)) (Program.addBlock_draft b.name)
    refine Decides.after rfl ?_
    dsimp only
    refine (Decides.guard fun hfresh => Decides.after hadd (ih ?_)).mono ?_ ?_
    · rw [Program.isSome_findBlock?_draft] at hfresh
      rw [List.map_append]
      exact nodup_concat hbs hfresh
    · rw [Program.isSome_findBlock?_draft, List.map_append]
      exact nodup_append_cons
    · rintro _ q - rfl
      simp [bareBlocks]

/-- Making an instruction at the end of a block. -/
theorem make_run {α : Type} {done rest : List Block} (b : Block) (l : List InstrId) (i : InstrSyntax)
    (k : InstrId → Resolver α) :
    (do
      let id ← modifyGet (·.addInstr (Resolving.instrOf i))
      modify (·.appendTo ⟨p.funcs.size, done.length⟩ id)
      k id : Resolver α) (p.draft fn ps (done ++ b.listing l :: rest) is ls) =
    k (p.instrs.size + is.length) (p.draft fn ps
      (done ++ b.listing (l ++ [p.instrs.size + is.length]) :: rest)
      (is ++ [instrAt ⟨p.funcs.size, done.length⟩ is.length i])
      (linkBehind ls l.getLast? (p.instrs.size + is.length))) := by
  rw [← Program.extend_draft, ← Program.size_instrs_draft]
  rfl

theorem defines_of_name_ne {i : InstrSyntax} (h : i.name ≠ "") : i.defines = some i.name :=
  if_neg h

/-- The names stay distinct. -/
theorem nodup_namesWith {i : InstrSyntax} (id : InstrId) (hnames : (names.map Prod.fst).Nodup)
    (hfresh : ¬(i.name ≠ "" && (names.find? i.name).isSome) = true) :
    ((Resolving.namesWith names i id).map Prod.fst).Nodup := by
  unfold Resolving.namesWith
  split
  · exact hnames
  · next hname =>
    rw [List.map_append]
    refine nodup_concat hnames fun hmem => hfresh ?_
    simpa [hname] using Names.isSome_find?.mpr hmem

/-- The condition on the names of results, instruction by instruction. -/
theorem nodup_namesWith_append {i : InstrSyntax} {l : List InstrSyntax} (id : InstrId) :
    ¬(i.name ≠ "" && (names.find? i.name).isSome) = true ∧
        ((Resolving.namesWith names i id).map Prod.fst ++ l.filterMap InstrSyntax.defines).Nodup ↔
      (names.map Prod.fst ++ (i :: l).filterMap InstrSyntax.defines).Nodup := by
  by_cases hname : i.name = ""
  · simp [Resolving.namesWith, InstrSyntax.defines, hname]
  · have hcheck : ¬(i.name ≠ "" && (names.find? i.name).isSome) = true ↔
        i.name ∉ names.map Prod.fst := by
      rw [← Names.isSome_find?]
      simp [hname]
    rw [Resolving.namesWith, if_neg hname, hcheck, List.map_append,
      List.filterMap_cons_some (defines_of_name_ne hname)]
    exact nodup_append_cons

theorem namesWith_append (names : Names) (i : InstrSyntax) (n : Nat) (l : List InstrSyntax) :
    Resolving.namesWith names i n ++ resultNames (enumerate (n + 1) l) =
      names ++ resultNames (enumerate n (i :: l)) := by
  rw [enumerate_cons]
  by_cases hname : i.name = ""
  · simp [Resolving.namesWith, resultNames, InstrSyntax.defines, hname]
  · simp [Resolving.namesWith, resultNames, InstrSyntax.defines, hname]

theorem decides_resolveInstrs {done rest : List Block} (l : List InstrSyntax) (b : Block)
    (before : List InstrId) (hnames : (names.map Prod.fst).Nodup) :
    Decides (resolveInstrs ⟨p.funcs.size, done.length⟩ names l)
      (p.draft fn ps (done ++ b.listing before :: rest) is ls)
      ((l ≠ [] → ((p.draft fn ps (done ++ b.listing before :: rest) is ls).terminator?
          ⟨p.funcs.size, done.length⟩).isSome = false) ∧
        l.Pairwise (fun i _ => i.op.isTerminator = false) ∧
        (names.map Prod.fst ++ l.filterMap InstrSyntax.defines).Nodup) fun r q =>
      r = (names ++ resultNames (enumerate (p.instrs.size + is.length) l),
        enumerate (p.instrs.size + is.length) l) ∧
      q = p.draft fn ps
        (done ++ b.listing (before ++ List.range' (p.instrs.size + is.length) l.length) :: rest)
        (is ++ instrsOf p.funcs.size is.length (l.map (done.length, ·)))
        (linksFrom ls before.getLast? (p.instrs.size + is.length) l.length) := by
  induction l generalizing names before is ls with
  | nil =>
    rw [resolveInstrs]
    refine (Decides.pure (ε := SourceError) ?_).congr (by simpa using hnames)
    simp [enumerate, resultNames, instrsOf, linksFrom]
  | cons i rest' ih =>
    rw [resolveInstrs]
    refine Decides.after rfl ?_
    dsimp only
    refine (Decides.guard fun hterm => Decides.guard fun hfresh => Decides.of_run (make_run b before i _)
      ((ih _ ?_).arrange _)).mono ?_ ?_
    · exact nodup_namesWith _ hnames hfresh
    · have hrest : (∀ d ∈ rest', i.op.isTerminator = false) ↔
          (rest' ≠ [] → i.op.isTerminator = false) := by
        cases rest' with
        | nil => simp
        | cons d _ => exact ⟨fun h _ => h d List.mem_cons_self, fun h _ _ => h (List.cons_ne_nil _ _)⟩
      rw [Program.isSome_terminator?_draft, List.pairwise_cons, hrest,
        ← nodup_namesWith_append (p.instrs.size + is.length), Bool.not_eq_true]
      constructor
      · rintro ⟨hterm, hfresh, hjump, hjumps, hnodup⟩
        exact ⟨fun _ => hterm, ⟨hjump, hjumps⟩, hfresh, hnodup⟩
      · rintro ⟨hterm, ⟨hjump, hjumps⟩, hfresh, hnodup⟩
        exact ⟨hterm (List.cons_ne_nil _ _), hfresh, hjump, hjumps, hnodup⟩
    · rintro r q - ⟨r', ⟨rfl, rfl⟩, rfl⟩
      have hlist := namesWith_append names i (p.instrs.size + is.length) rest'
      rw [List.length_append, List.length_singleton, ← Nat.add_assoc]
      refine ⟨Prod.ext hlist ?_, ?_⟩
      · rw [enumerate_cons]
      · simp [instrsOf, linksFrom, List.range'_succ, List.zipIdx_cons]

/-- The instructions of a block that is still empty. -/
theorem decides_fill {done rest : List Block} (b : BlockSyntax)
    (hnames : (names.map Prod.fst).Nodup) :
    Decides (resolveInstrs ⟨p.funcs.size, done.length⟩ names b.instrs)
      (p.draft fn ps (done ++ { id := done.length, name := b.name } :: rest) is ls)
      (b.instrs.Pairwise (fun i _ => i.op.isTerminator = false) ∧
        (names.map Prod.fst ++ b.instrs.filterMap InstrSyntax.defines).Nodup) fun r q =>
      r = (names ++ resultNames (enumerate (p.instrs.size + is.length) b.instrs),
        enumerate (p.instrs.size + is.length) b.instrs) ∧
      q = p.draft fn ps (done ++ [blockOf done.length (p.instrs.size + is.length) b] ++ rest)
        (is ++ instrsOf p.funcs.size is.length (b.instrs.map (done.length, ·)))
        (linksFrom ls none (p.instrs.size + is.length) b.instrs.length) := by
  have hempty : ((p.draft fn ps (done ++ { id := done.length, name := b.name } :: rest) is ls).terminator?
      ⟨p.funcs.size, done.length⟩).isSome = false := by
    simp [Program.terminator?, Program.block, Program.func_draft]
  refine (decides_resolveInstrs b.instrs { id := done.length, name := b.name } [] hnames).mono ?_ ?_
  · exact and_iff_right fun _ => hempty
  · rintro r q - ⟨rfl, rfl⟩
    simp [blockOf]

/-- The instructions of the blocks that are still empty. -/
theorem decides_resolveBodies {done : List Block} (l : List BlockSyntax)
    (hnames : (names.map Prod.fst).Nodup) :
    Decides (resolveBodies p.funcs.size done.length names l)
      (p.draft fn ps (done ++ bareBlocks done.length l) is ls)
      ((∀ b ∈ l, b.instrs.Pairwise fun i _ => i.op.isTerminator = false) ∧
        (names.map Prod.fst ++ (l.flatMap (·.instrs)).filterMap InstrSyntax.defines).Nodup)
      fun r q =>
      r = (names ++ resultNames (enumerate (p.instrs.size + is.length) (l.flatMap (·.instrs))),
        enumerate (p.instrs.size + is.length) (l.flatMap (·.instrs))) ∧
      q = p.draft fn ps (done ++ blocksOf done.length (p.instrs.size + is.length) l)
        (is ++ instrsOf p.funcs.size is.length (sitesFrom done.length l))
        (linksOf ls (p.instrs.size + is.length) l) := by
  induction l generalizing names done is ls with
  | nil =>
    rw [resolveBodies]
    refine (Decides.pure (ε := SourceError) ?_).congr (by simpa using hnames)
    simp [enumerate, resultNames, instrsOf, bareBlocks, blocksOf, linksOf, sitesFrom]
  | cons b rest ih =>
    rw [resolveBodies]
    refine ((decides_fill b hnames).bind (D := (∀ c ∈ rest, c.instrs.Pairwise fun i _ =>
        i.op.isTerminator = false) ∧
      (names.map Prod.fst ++ b.instrs.filterMap InstrSyntax.defines ++
        (rest.flatMap (·.instrs)).filterMap InstrSyntax.defines).Nodup) fun r q hC hQ => ?_).congr ?_
    · obtain ⟨rfl, rfl⟩ := hQ
      have hkeys : (names ++ resultNames (enumerate (p.instrs.size + is.length) b.instrs)).map
          Prod.fst = names.map Prod.fst ++ b.instrs.filterMap InstrSyntax.defines := by
        rw [List.map_append, map_fst_resultNames]
      dsimp only
      have hrest := @ih (is ++ instrsOf p.funcs.size is.length (b.instrs.map (done.length, ·)))
        (linksFrom ls none (p.instrs.size + is.length) b.instrs.length) _
        (done ++ [blockOf done.length (p.instrs.size + is.length) b]) (hkeys ▸ hC.2)
      simp only [hkeys, List.length_append, List.length_singleton, length_instrsOf, List.length_map,
        ← Nat.add_assoc] at hrest
      refine (hrest.arrange _).mono Iff.rfl ?_
      rintro r q - ⟨r', ⟨rfl, rfl⟩, rfl⟩
      constructor
      · simp [enumerate_append, resultNames]
      · simp [blocksOf, linksOf, sitesFrom, instrsOf_append]
    · rw [List.forall_mem_cons, List.flatMap_cons, List.filterMap_append, List.append_assoc]
      constructor
      · rintro ⟨⟨hjumps, -⟩, hrest, hnodup⟩
        exact ⟨⟨hjumps, hrest⟩, hnodup⟩
      · rintro ⟨⟨hjumps, hrest⟩, hnodup⟩
        have hnodup' := hnodup
        rw [← List.append_assoc] at hnodup'
        exact ⟨⟨hjumps, (List.nodup_append.mp hnodup').1⟩, hrest, hnodup⟩

end Parts

/-! ### Operands and targets -/

/-- What the operand names is there. -/
def Operand.Found (p : Program) (names : Names) (a : Operand) : Prop :=
  match a.form with
  | .value n => (names.find? n).isSome = true
  | .global n => (p.findGlobal? n).isSome = true
  | .literal _ => True

/-- A result of the block of the instruction `id` comes before it. -/
def Operand.Precedes (p : Program) (names : Names) (id : InstrId) (a : Operand) : Prop :=
  ∀ n d, a.form = .value n → names.find? n = some (.instr d) →
    (p.instr d).place = (p.instr id).place → d < id

/-- The operands and targets of the instruction `e.2`, which has the number `e.1`, can be resolved. -/
structure Linkable (p : Program) (f : FuncId) (names : Names) (e : InstrId × InstrSyntax) : Prop where
  /-- Operands are defined, within the block before their use. -/
  operands : ∀ a ∈ e.2.args, a.Found p names ∧ a.Precedes p names e.1
  /-- Targets are blocks. -/
  targets : ∀ t ∈ e.2.targets, (p.findBlock? f t.name).isSome = true

/-- The operand stands for a value, where `ty` is the type of integers. -/
def Operand.Denotes (p : Program) (names : Names) (ty : Ty) (a : Operand) (v : Value) : Prop :=
  match a.form with
  | .value n => names.find? n = some v
  | .global n => ∃ g, p.findGlobal? n = some g ∧ v = .global g
  | .literal x => ∃ c, c < p.consts.size ∧ v = .const c ∧ p.consts.get c = .ofValue ty x

/-- The operands of an instruction from index `k` on stand for values. -/
def InstrSyntax.Denotes (p : Program) (names : Names) (i : InstrSyntax) (k : Nat)
    (l : List Operand) (vs : List Value) : Prop :=
  List.Forall₂ (fun e v => e.1.Denotes p names (i.literalType e.2) v) (l.zipIdx k) vs

/-- The program `q` has the global variables of `p`, its constants and maybe more. -/
structure Widens (p q : Program) : Prop where
  /-- The global variables are the same. -/
  globals : q.globals = p.globals
  /-- No constant is lost. -/
  size_consts : p.consts.size ≤ q.consts.size
  /-- Constants stay as they are. -/
  consts : ∀ c < p.consts.size, q.consts.get c = p.consts.get c

section Links

variable {p q : Program} {names : Names} {f : FuncId}

theorem Widens.refl (p : Program) : Widens p p :=
  ⟨rfl, Nat.le_refl _, fun _ _ => rfl⟩

theorem Widens.trans {r : Program} (h : Widens p q) (h' : Widens q r) : Widens p r := by
  refine ⟨h'.globals.trans h.globals, Nat.le_trans h.size_consts h'.size_consts, fun c hc => ?_⟩
  rw [h'.consts c (Nat.lt_of_lt_of_le hc h.size_consts), h.consts c hc]

theorem Operand.Denotes.mono {a : Operand} {ty : Ty} {v : Value} (h : a.Denotes p names ty v)
    (hq : Widens p q) : a.Denotes q names ty v := by
  obtain ⟨pos, form⟩ := a
  cases form with
  | value n => exact h
  | global n =>
    unfold Denotes Program.findGlobal? at h ⊢
    rw [hq.globals]
    exact h
  | literal x =>
    obtain ⟨c, hc, hv, hx⟩ := h
    exact ⟨c, Nat.lt_of_lt_of_le hc hq.size_consts, hv, (hq.consts c hc).trans hx⟩

theorem InstrSyntax.Denotes.mono {i : InstrSyntax} {k : Nat} {l : List Operand} {vs : List Value}
    (h : i.Denotes p names k l vs) (hq : Widens p q) : i.Denotes q names k l vs :=
  List.Forall₂.imp (fun _ _ ha => ha.mono hq) h

theorem decides_resolveOperand (i : InstrSyntax) (k : Nat) (a : Operand) :
    Decides (resolveOperand names i k a) p (a.Found p names) fun v q =>
      (∃ cs, q = { p with consts := cs }) ∧ Widens p q ∧ a.Denotes q names (i.literalType k) v := by
  obtain ⟨pos, form⟩ := a
  unfold resolveOperand Operand.Found Operand.Denotes
  cases form with
  | value n =>
    dsimp only
    cases hfind : names.find? n with
    | none => exact (Decides.throw _).congr (by simp)
    | some v => exact (Decides.pure ⟨⟨_, rfl⟩, .refl p, rfl⟩).congr (by simp)
  | global n =>
    refine Decides.after rfl ?_
    dsimp only
    cases hfind : p.findGlobal? n with
    | none => exact (Decides.throw _).congr (by simp)
    | some g => exact (Decides.pure ⟨⟨_, rfl⟩, .refl p, g, hfind, rfl⟩).congr (by simp)
  | literal x =>
    refine Decides.after rfl (Decides.pure ?_)
    refine ⟨⟨_, rfl⟩, ⟨rfl, ?_, fun c hc => ?_⟩, p.consts.size, ?_, rfl, ?_⟩
    · simp
    · rw [Table.get_push, if_neg (Nat.ne_of_lt hc)]
    · simp
    · simp [Table.get_push]

/-- Only a name can stand for the result of an instruction. -/
theorem Operand.Denotes.instr {a : Operand} {ty : Ty} {d : InstrId}
    (h : a.Denotes p names ty (.instr d)) : ∃ n, a.form = .value n ∧ names.find? n = some (.instr d) := by
  unfold Denotes at h
  split at h
  · next n hform => exact ⟨n, hform, h⟩
  · obtain ⟨g, -, hv⟩ := h
    cases hv
  · obtain ⟨c, -, hv, -⟩ := h
    cases hv

theorem decides_resolveOperands (id : InstrId) (i : InstrSyntax) (k : Nat) (l : List Operand) :
    Decides (resolveOperands names id i k l) p
      (∀ a ∈ l, a.Found p names ∧ a.Precedes p names id) fun vs q =>
        (∃ cs, q = { p with consts := cs }) ∧ Widens p q ∧ i.Denotes q names k l vs := by
  induction l generalizing k p with
  | nil =>
    rw [resolveOperands]
    exact (Decides.pure ⟨⟨_, rfl⟩, .refl p, .nil⟩).congr (by simp)
  | cons a rest ih =>
    rw [resolveOperands]
    refine ((decides_resolveOperand i k a).bind (D := a.Precedes p names id ∧
      ∀ b ∈ rest, b.Found p names ∧ b.Precedes p names id) fun v q _ hQ => ?_).congr ?_
    · obtain ⟨⟨cs, rfl⟩, hwidens, hdenotes⟩ := hQ
      have hrest : Decides (do return v :: (← resolveOperands names id i (k + 1) rest))
          { p with consts := cs }
          (∀ b ∈ rest, b.Found p names ∧ b.Precedes p names id) fun vs r =>
            (∃ cs, r = { p with consts := cs }) ∧ Widens p r ∧
              i.Denotes r names k (a :: rest) vs := by
        refine ((ih (k + 1)).arrange (v :: ·)).mono Iff.rfl ?_
        rintro vs r - ⟨vs', ⟨⟨cs', rfl⟩, hwidens', hdenotes'⟩, rfl⟩
        exact ⟨⟨cs', rfl⟩, hwidens.trans hwidens', .cons (hdenotes.mono hwidens') hdenotes'⟩
      refine Decides.after rfl ?_
      split
      · next d =>
        obtain ⟨n, hform, hfind⟩ := hdenotes.instr
        dsimp only
        refine (Decides.guard fun _ => hrest).congr (and_congr_left fun _ => ?_)
        simp only [Bool.and_eq_true, decide_eq_true_eq, not_and, Nat.not_le]
        constructor
        · intro hbefore n' d' hform' hfind'
          rw [hform] at hform'
          cases hform'
          rw [hfind] at hfind'
          cases hfind'
          exact hbefore
        · exact fun hprecedes => hprecedes n d hform hfind
      · next hother =>
        refine hrest.congr (iff_and_self.mpr fun _ n d hform hfind => ?_)
        rw [Operand.Denotes, hform] at hdenotes
        exact absurd (Option.some.inj (hdenotes.symm.trans hfind)) (hother d)
    · rw [List.forall_mem_cons, and_assoc]

theorem decides_resolveTargets (l : List Target) :
    Decides (resolveTargets f l) p (∀ t ∈ l, (p.findBlock? f t.name).isSome = true) fun ts q =>
      q = p ∧ List.Forall₂ (fun t b => p.findBlock? f t.name = some b) l ts := by
  induction l with
  | nil =>
    rw [resolveTargets]
    exact (Decides.pure ⟨rfl, .nil⟩).congr (by simp)
  | cons t rest ih =>
    rw [resolveTargets]
    refine Decides.after rfl ?_
    cases hfind : p.findBlock? f t.name with
    | none => exact (Decides.throw _).congr (by simp [hfind])
    | some b =>
      refine (ih.arrange (b :: ·)).mono (by simp [hfind]) ?_
      rintro ts q - ⟨ts', ⟨rfl, hts⟩, rfl⟩
      exact ⟨rfl, .cons hfind hts⟩

end Links

/-! ### Linking -/

theorem Table.size_modify {α : Type} [Inhabited α] (t : Table α) {i : Nat} (hi : i < t.size)
    (g : α → α) : (t.modify i g).size = t.size := by
  have hi' : i < t.cells.size := hi
  simp [Table.modify, Table.set, Table.size, hi']

/-- Linking changes nothing but instructions and use-lists. -/
theorem link_eq (p : Program) {i : InstrId} (hi : i < p.instrs.size) (targets : List BlockRef)
    (vs : List Value) : ∃ is us, p.link i targets vs = { p with instrs := is, uses := us } ∧
      is.size = p.instrs.size := by
  obtain ⟨us, hus⟩ := Program.exists_registerFrom i 0 (vs.map some)
    ((p.modifyInstr i fun x => { x with targets := targets }).modifyInstr i
      fun x => { x with operands := vs.map some })
  refine ⟨_, us, hus, ?_⟩
  have hsize := Table.size_modify p.instrs hi fun x => { x with targets := targets }
  exact (Table.size_modify _ (Nat.lt_of_lt_of_eq hi hsize.symm) _).trans hsize

/-- The program `q` is `p`, where the instructions that were made have their operands and targets. -/
structure Linked (f : FuncId) (names : Names) (made : List (InstrId × InstrSyntax)) (p q : Program) :
    Prop extends Widens p q where
  /-- Functions are unchanged. -/
  funcs : q.funcs = p.funcs
  /-- Parameters are unchanged. -/
  params : q.params = p.params
  /-- There are no new instructions. -/
  size : q.instrs.size = p.instrs.size
  /-- Other instructions are unchanged. -/
  others : ∀ j ∉ made.map Prod.fst, q.instr j = p.instr j
  /-- What was made has its operands and targets. -/
  linked : ∀ e ∈ made, ∃ ts vs,
    q.instr e.1 = { p.instr e.1 with targets := ts, operands := vs.map some } ∧
      List.Forall₂ (fun t b => p.findBlock? f t.name = some b) e.2.targets ts ∧
      e.2.Denotes q names 0 e.2.args vs

section Linking

variable {p q : Program} {names : Names} {f : FuncId} {made : List (InstrId × InstrSyntax)}

theorem linkable_congr (hfuncs : q.funcs = p.funcs) (hglobals : q.globals = p.globals)
    (hplace : ∀ j, (q.instr j).place = (p.instr j).place) {e : InstrId × InstrSyntax} :
    Linkable q f names e ↔ Linkable p f names e := by
  have hfound : ∀ a : Operand, a.Found q names ↔ a.Found p names := by
    intro a
    unfold Operand.Found Program.findGlobal?
    rw [hglobals]
  have hprecedes : ∀ a : Operand, a.Precedes q names e.1 ↔ a.Precedes p names e.1 := by
    intro a
    unfold Operand.Precedes
    simp only [hplace]
  have htarget : ∀ name, q.findBlock? f name = p.findBlock? f name := by
    intro name
    rw [Program.findBlock?, Program.findBlock?, Program.func_congr hfuncs]
  constructor
  · intro h
    exact ⟨fun a ha => ⟨(hfound a).mp (h.operands a ha).1, (hprecedes a).mp (h.operands a ha).2⟩,
      fun t ht => htarget t.name ▸ h.targets t ht⟩
  · intro h
    exact ⟨fun a ha => ⟨(hfound a).mpr (h.operands a ha).1, (hprecedes a).mpr (h.operands a ha).2⟩,
      fun t ht => htarget t.name ▸ h.targets t ht⟩

/-- One more instruction is linked, before the others. -/
theorem Linked.cons {r : Program} {cs : Table Const} {id : InstrId} {i : InstrSyntax}
    {ts : List BlockRef} {vs : List Value} (hid : id < p.instrs.size)
    (hnew : id ∉ made.map Prod.fst) (hwidens : Widens p { p with consts := cs })
    (hdenotes : i.Denotes { p with consts := cs } names 0 i.args vs)
    (hts : List.Forall₂ (fun t b => p.findBlock? f t.name = some b) i.targets ts)
    (h : Linked f names made ({ p with consts := cs }.link id ts vs) r) :
    Linked f names ((id, i) :: made) p r := by
  have hinstr := Program.instr_link { p with consts := cs } id ts vs
  obtain ⟨is, us, hlink, hsize⟩ := link_eq { p with consts := cs } hid ts vs
  rw [hlink] at h hinstr
  have hwidens' : Widens p r := hwidens.trans ⟨h.globals, h.size_consts, h.consts⟩
  refine { hwidens' with
    funcs := h.funcs, params := h.params, size := h.size.trans hsize, others := ?_, linked := ?_ }
  · intro j hj
    rw [List.map_cons, List.mem_cons, not_or] at hj
    rw [h.others j hj.2, hinstr, if_neg (Ne.symm hj.1)]
    rfl
  · intro e he
    rcases List.mem_cons.mp he with rfl | hmade
    · refine ⟨ts, vs, ?_, hts, hdenotes.mono ⟨h.globals, h.size_consts, h.consts⟩⟩
      rw [h.others id hnew, hinstr, if_pos rfl]
      rfl
    · obtain ⟨ts', vs', hlinked, htargets, hargs⟩ := h.linked e hmade
      have hne : id ≠ e.1 := by
        rintro rfl
        exact hnew (List.mem_map_of_mem hmade)
      rw [hinstr, if_neg hne] at hlinked
      exact ⟨ts', vs', hlinked, htargets, hargs⟩

theorem decides_resolveUses (hdistinct : (made.map Prod.fst).Nodup)
    (hlt : ∀ e ∈ made, e.1 < p.instrs.size) :
    Decides (resolveUses f names made) p (∀ e ∈ made, Linkable p f names e) fun _ q =>
      Linked f names made p q := by
  induction made generalizing p with
  | nil =>
    rw [resolveUses]
    refine (Decides.pure ?_).congr (by simp)
    exact ⟨.refl p, rfl, rfl, rfl, fun _ _ => rfl, by simp⟩
  | cons e rest ih =>
    obtain ⟨id, i⟩ := e
    rw [List.map_cons, List.nodup_cons] at hdistinct
    rw [List.forall_mem_cons] at hlt
    rw [resolveUses]
    refine ((decides_resolveOperands id i 0 i.args).bind (D := (∀ t ∈ i.targets,
        (p.findBlock? f t.name).isSome = true) ∧ ∀ e ∈ rest, Linkable p f names e)
      fun vs q _ hq => ?_).congr ?_
    · obtain ⟨⟨cs, rfl⟩, hwidens, hdenotes⟩ := hq
      refine (decides_resolveTargets i.targets).bind fun ts q _ hq => ?_
      obtain ⟨rfl, hts⟩ := hq
      obtain ⟨is, us, hlink, hsize⟩ := link_eq { p with consts := cs } hlt.1 ts vs
      refine Decides.after (t := { p with consts := cs }.link id ts vs) rfl ((ih hdistinct.2 ?_).mono ?_ ?_)
      · rw [hlink, hsize]
        exact hlt.2
      · refine forall_congr' fun e => imp_congr_right fun _ => linkable_congr ?_ ?_ fun j => ?_
        · rw [hlink]
        · rw [hlink]
        · exact Program.place_link { p with consts := cs } id ts vs j
      · intro _ r _ hr
        exact hr.cons hlt.1 hdistinct.1 hwidens hdenotes hts
    · rw [List.forall_mem_cons, ← and_assoc]
      exact and_congr_left fun _ => ⟨fun h => ⟨h.1, h.2⟩, fun h => ⟨h.operands, h.targets⟩⟩

end Linking

end Midend.Source
