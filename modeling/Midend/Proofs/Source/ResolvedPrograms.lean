import Midend.Proofs.Program.Builder
import Midend.Proofs.Source.ParserShapes
import Midend.Source.Resolve

/-!
# Programs of accepted texts

The program of an accepted text is well-formed and ordered.  While a function is being resolved, its
instructions are first made without operands and then linked; in between the names that are known
stand for usable values, and the instructions that wait for their operands are known.

## Main definitions

* `Resolving`: the state in the middle of a function.

## Main results

* `Resolving.extend`, `Resolving.link`: the two kinds of steps.
* `Program.wellFormed_of_parse`: the program of an accepted text.
-/

namespace Midend.Source

/-! ### The state in the middle of a function -/

/-- While a function with `n` blocks is resolved: the names stand for usable values, and the
instructions that were made have no operands yet. -/
structure Resolving (f : FuncId) (n : Nat) (p : Program) (names : Names)
    (made : List (InstrId × InstrSyntax)) : Prop where
  /-- The program is coherent. -/
  coherent : p.Coherent
  /-- The program is ordered. -/
  ordered : p.Ordered
  /-- Only the stores that were made lack operands. -/
  stores : p.StoresBut (made.map Prod.fst)
  /-- The function has its blocks. -/
  blocks : (p.func f).blocks.size = n
  /-- Names stand for usable values. -/
  named : ∀ e ∈ names, p.Usable f e.2
  /-- What was made is in the function, has its shape and no operands. -/
  pending : ∀ e ∈ made, e.2.Shaped ∧ (∃ b, (p.instr e.1).place = .inBlock b ∧ b.func = f) ∧
    (p.instr e.1).operands = [] ∧ (p.instr e.1).op = e.2.op
  /-- Nothing was made twice. -/
  distinct : (made.map Prod.fst).Nodup

namespace Resolving

variable {f : FuncId} {n : Nat} {p : Program} {names : Names} {made : List (InstrId × InstrSyntax)}

/-- The instruction that is made for a piece of syntax. -/
def instrOf (i : InstrSyntax) : Instr :=
  { op := i.op, name := i.name, ty := i.ty, elem := i.elem, callee := i.callee }

/-- The names after an instruction was made. -/
def namesWith (names : Names) (i : InstrSyntax) (id : InstrId) : Names :=
  if i.name = "" then names else names ++ [(i.name, .instr id)]

/-- Making an instruction at the end of a block. -/
theorem extend (h : Resolving f n p names made) {b : BlockRef} (hfunc : b.func = f)
    (hb : b.index < n) (hterm : p.terminator? b = none) {i : InstrSyntax} (hi : i.Shaped) :
    Resolving f n (p.extend b (instrOf i)) (namesWith names i p.instrs.size)
      (made ++ [(p.instrs.size, i)]) := by
  have hlt : ∀ e ∈ made, e.1 < p.instrs.size := by
    intro e he
    obtain ⟨-, ⟨c, hc, -⟩, -⟩ := h.pending e he
    exact Program.lt_size_of_inBlock hc
  have hb' : b.index < (p.func b.func).blocks.size := by
    rw [hfunc, h.blocks]
    exact hb
  refine ⟨h.coherent.extend rfl hb' hterm rfl rfl fun hop => (hi.store hop).2,
    h.ordered.extend h.coherent rfl, ?stores, ?blocks, ?named, ?pending, ?distinct⟩
  case stores =>
    refine (h.stores.extend b (instrOf i)).mono fun j hj => ?_
    rw [List.map_append, List.mem_append]
    exact (List.mem_cons.mp hj).elim (fun hj => .inr (List.mem_singleton.mpr hj)) .inl
  case blocks =>
    rw [(Program.func_extend hb' (instrOf i) f).1]
    exact h.blocks
  case named =>
    intro e he
    unfold namesWith at he
    split at he
    · exact (h.named e he).extend b _
    · next hname =>
      rcases List.mem_append.mp he with he | he
      · exact (h.named e he).extend b _
      · rw [List.mem_singleton.mp he, Program.usable_instr, Program.instr_extend_size]
        exact ⟨b, rfl, hfunc, hi.named hname⟩
  case pending =>
    intro e he
    rcases List.mem_append.mp he with he | he
    · rw [Program.instr_extend_of_ne (Nat.ne_of_gt (hlt e he))]
      exact h.pending e he
    · rw [List.mem_singleton.mp he]
      dsimp only
      rw [Program.instr_extend_size]
      exact ⟨hi, ⟨b, rfl, hfunc⟩, rfl, rfl⟩
  case distinct =>
    rw [List.map_append, List.nodup_append]
    refine ⟨h.distinct, List.pairwise_singleton _ _, fun j hj k hk => ?_⟩
    obtain ⟨e, he, rfl⟩ := List.mem_map.mp hj
    rw [List.mem_singleton.mp hk]
    exact Nat.ne_of_lt (hlt e he)

/-- Linking the first of the instructions that were made. -/
theorem link {id : InstrId} {i : InstrSyntax} (h : Resolving f n p names ((id, i) :: made))
    {targets : List BlockRef} {vs : List Value}
    (htargets : ∀ t ∈ targets, t.func = f ∧ t.index < (p.func f).blocks.size)
    (hvs : ∀ v ∈ vs, p.Usable f v) (hlength : vs.length = i.args.length)
    (hbefore : ∀ d, Value.instr d ∈ vs → (p.instr d).place = (p.instr id).place → d < id) :
    Resolving f n (p.link id targets vs) names made := by
  obtain ⟨hshape, ⟨b, hb, rfl⟩, hempty, hop⟩ := h.pending (id, i) List.mem_cons_self
  have hdistinct := h.distinct
  rw [List.map_cons, List.nodup_cons] at hdistinct
  refine ⟨h.coherent.link hb hempty htargets hvs, h.ordered.link hbefore,
    h.stores.link fun hstore => hlength.trans (hshape.store (hop ▸ hstore)).1, ?blocks,
    fun e he => Program.usable_link.mpr (h.named e he), ?pending, hdistinct.2⟩
  case blocks =>
    rw [Program.func_congr (p.funcs_link id targets vs)]
    exact h.blocks
  case pending =>
    intro e he
    have hne : id ≠ e.1 := by
      intro heq
      have hmem : e.1 ∈ made.map Prod.fst := List.mem_map_of_mem he
      rw [← heq] at hmem
      exact hdistinct.1 hmem
    rw [Program.instr_link, if_neg hne]
    exact h.pending e (List.mem_cons_of_mem _ he)

/-- Constants that are made on the way change nothing. -/
theorem withConsts (h : Resolving f n p names made) (cs : Table Const) :
    Resolving f n { p with consts := cs } names made :=
  ⟨{ h.coherent with }, h.ordered, h.stores, h.blocks, h.named, h.pending, h.distinct⟩

end Resolving

/-- Nothing follows a rejection. -/
theorem yields_reject_bind {α β : Type} (pos : Position) (reason : Reason) (f : α → Resolver β)
    {p : Program} {Q : β → Program → Prop} : Yields (reject pos reason >>= f) p Q :=
  (yields_bind _ _).mpr (yields_throw _)

/-! ### Instructions -/

section Instructions

variable {f : FuncId} {n : Nat}

theorem yields_resolveInstrs {b : BlockRef} (hfunc : b.func = f) (hb : b.index < n)
    (l : List InstrSyntax) (hl : ∀ i ∈ l, i.Shaped) (p : Program) (names : Names)
    (made : List (InstrId × InstrSyntax)) (h : Resolving f n p names made) :
    Yields (resolveInstrs b names l) p fun r q => Resolving f n q r.1 (made ++ r.2) := by
  induction l generalizing p names made with
  | nil =>
    rw [resolveInstrs, yields_pure, List.append_nil]
    exact h
  | cons i rest ih =>
    have hmake : p.terminator? b = none → Yields (do
        let id ← modifyGet (·.addInstr (Resolving.instrOf i))
        modify (·.appendTo b id)
        let r ← resolveInstrs b (Resolving.namesWith names i id) rest
        pure (r.1, (id, i) :: r.2)) p fun r q => Resolving f n q r.1 (made ++ r.2) := by
      intro hterm
      have hstep := h.extend hfunc hb hterm (hl i List.mem_cons_self)
      simp only [yields_bind, yields_modifyGet, yields_modify, yields_pure]
      refine (ih (fun j hj => hl j (List.mem_cons_of_mem i hj)) _ _ _ hstep).mono fun r q hq => ?_
      rw [List.append_assoc] at hq
      exact hq
    rw [resolveInstrs, yields_bind, yields_get]
    dsimp only
    by_cases hterm : (p.terminator? b).isSome = true
    · rw [if_pos hterm]
      exact yields_reject_bind _ _ _
    · rw [if_neg hterm]
      split
      · exact yields_reject_bind _ _ _
      · exact hmake (by simpa using hterm)

theorem yields_resolveBodies (bs : List BlockSyntax) (hbs : ∀ b ∈ bs, ∀ i ∈ b.instrs, i.Shaped)
    (k : Nat) (hk : k + bs.length ≤ n) (p : Program) (names : Names)
    (made : List (InstrId × InstrSyntax)) (h : Resolving f n p names made) :
    Yields (resolveBodies f k names bs) p fun r q => Resolving f n q r.1 (made ++ r.2) := by
  induction bs generalizing k p names made with
  | nil =>
    rw [resolveBodies, yields_pure, List.append_nil]
    exact h
  | cons b rest ih =>
    rw [List.length_cons] at hk
    rw [resolveBodies, yields_bind]
    refine (yields_resolveInstrs (b := ⟨f, k⟩) rfl (show k < n by omega) b.instrs
      (hbs b List.mem_cons_self) p names made h).mono fun r q hq => ?_
    rw [yields_bind]
    refine (ih (fun c hc => hbs c (List.mem_cons_of_mem b hc)) (k + 1) (by omega) q r.1 _ hq).mono
      fun r' q' hq' => ?_
    rw [List.append_assoc] at hq'
    exact (yields_pure _).mpr hq'

end Instructions

/-! ### Operands and targets -/

section Links

variable {f : FuncId} {names : Names}

theorem yields_resolveOperand {p : Program} (h : ∀ e ∈ names, p.Usable f e.2) (i : InstrSyntax)
    (k : Nat) (a : Operand) : Yields (resolveOperand names i k a) p fun v q =>
      p.Usable f v ∧ ∃ cs, q = { p with consts := cs } := by
  unfold resolveOperand
  split
  · next name _ =>
    split
    · next v hv =>
      obtain ⟨before, after, heq, -⟩ := List.lookup_eq_some_iff.mp hv
      rw [yields_pure]
      exact ⟨h (name, v) (by simp [heq]), p.consts, rfl⟩
    · exact yields_throw _
  · rw [yields_bind, yields_get]
    split
    · exact (yields_pure _).mpr ⟨trivial, p.consts, rfl⟩
    · exact yields_throw _
  · rw [yields_bind, yields_modifyGet, yields_pure]
    exact ⟨trivial, _, rfl⟩

/-- The operands of an instruction are usable, and those in its block are defined before it. -/
theorem yields_resolveOperands (id : InstrId) (i : InstrSyntax) (k : Nat) (l : List Operand)
    (p : Program) (h : ∀ e ∈ names, p.Usable f e.2) :
    Yields (resolveOperands names id i k l) p fun vs q => vs.length = l.length ∧
      (∀ v ∈ vs, p.Usable f v) ∧
      (∀ d, Value.instr d ∈ vs → (p.instr d).place = (p.instr id).place → d < id) ∧
      ∃ cs, q = { p with consts := cs } := by
  induction l generalizing k p with
  | nil =>
    rw [resolveOperands, yields_pure]
    exact ⟨rfl, by simp, by simp, p.consts, rfl⟩
  | cons a rest ih =>
    rw [resolveOperands, yields_bind]
    refine (yields_resolveOperand h i k a).mono fun v q hq => ?_
    obtain ⟨hv, cs, rfl⟩ := hq
    -- Whether the operand is an instruction or not, the others are read if it comes before.
    have hrest : (∀ d, v = .instr d → (p.instr d).place = (p.instr id).place → d < id) →
        Yields (do return v :: (← resolveOperands names id i (k + 1) rest))
          { p with consts := cs } fun vs q => vs.length = rest.length + 1 ∧
            (∀ v ∈ vs, p.Usable f v) ∧
            (∀ d, Value.instr d ∈ vs → (p.instr d).place = (p.instr id).place → d < id) ∧
            ∃ cs, q = { p with consts := cs } := by
      intro hbefore
      rw [yields_bind]
      refine (ih (k + 1) { p with consts := cs } h).mono fun vs q hq => ?_
      obtain ⟨hlength, husable, hbefore', cs', rfl⟩ := hq
      rw [yields_pure]
      refine ⟨congrArg (· + 1) hlength, ?_, ?_, cs', rfl⟩
      · intro w hw
        rcases List.mem_cons.mp hw with rfl | hw
        · exact hv
        · exact husable w hw
      · intro d hd
        rcases List.mem_cons.mp hd with hd | hd
        · exact hbefore d hd.symm
        · exact hbefore' d hd
    rw [yields_bind, yields_get]
    split
    · next d =>
      dsimp only
      split
      · exact yields_reject_bind _ _ _
      · next hcheck =>
        refine hrest fun d' hd hplace => ?_
        cases hd
        simp only [Bool.and_eq_true, decide_eq_true_eq, not_and, Nat.not_le] at hcheck
        exact hcheck hplace
    · next hother =>
      exact hrest fun d hd => absurd hd (hother d)

theorem yields_resolveTargets (l : List Target) (p : Program) :
    Yields (resolveTargets f l) p fun ts q => q = p ∧
      ∀ t ∈ ts, t.func = f ∧ t.index < (p.func f).blocks.size := by
  induction l with
  | nil =>
    rw [resolveTargets, yields_pure]
    exact ⟨rfl, by simp⟩
  | cons t rest ih =>
    rw [resolveTargets, yields_bind, yields_get]
    split
    · next b hb =>
      obtain ⟨k, hk, rfl⟩ := Option.map_eq_some_iff.mp hb
      obtain ⟨hlt, -⟩ := Array.findIdx?_eq_some_iff_getElem.mp hk
      rw [yields_bind]
      refine ih.mono fun ts q hq => ?_
      obtain ⟨rfl, hts⟩ := hq
      rw [yields_pure]
      refine ⟨rfl, fun u hu => ?_⟩
      rcases List.mem_cons.mp hu with rfl | hu
      · exact ⟨rfl, hlt⟩
      · exact hts u hu
    · exact yields_throw _

/-- Linking all that was made. -/
theorem yields_resolveUses {n : Nat} (made : List (InstrId × InstrSyntax)) (p : Program)
    (h : Resolving f n p names made) :
    Yields (resolveUses f names made) p fun _ q => q.WellFormed ∧ q.Ordered := by
  induction made generalizing p with
  | nil =>
    rw [resolveUses, yields_pure]
    exact ⟨h.coherent.wellFormed h.stores, h.ordered⟩
  | cons e rest ih =>
    obtain ⟨id, i⟩ := e
    rw [resolveUses, yields_bind]
    refine (yields_resolveOperands id i 0 i.args p h.named).mono fun vs q hq => ?_
    obtain ⟨hlength, husable, hbefore, cs, rfl⟩ := hq
    rw [yields_bind]
    refine (yields_resolveTargets i.targets _).mono fun ts q hq => ?_
    obtain ⟨rfl, hts⟩ := hq
    rw [yields_bind, yields_modify]
    exact ih _ ((h.withConsts cs).link hts husable hlength hbefore)

end Links

/-! ### Functions -/

section Functions

/-- A new function has no blocks. -/
theorem resolving_addFunc {p : Program} (h : p.WellFormed) (hord : p.Ordered) (name : String)
    {ret : Ty} (hret : ret.name?.isSome = true) :
    Resolving p.funcs.size 0 (p.addFunc name ret).2 [] [] := by
  have hfunc := p.func_addFunc name ret
  refine ⟨?_, hord, h.storesBut, ?_, by simp, by simp, List.nodup_nil⟩
  · refine h.toCoherent.of_instrs (fun _ => rfl) (fun _ => rfl) (fun b => ?_) (h.addFunc name ret)
      (fun f => ?_) fun f => ?_
    · rw [p.block_addFunc]
    · rw [hfunc]
      split
      · next hf =>
        rw [hf, p.func_size]
        exact Nat.le_refl _
      · exact Nat.le_refl _
    · rw [hfunc]
      split
      · exact hret
      · exact h.named f
  · rw [hfunc, if_pos rfl]
    rfl

/-- Functions may get new parts, as long as no instruction is touched. -/
theorem Resolving.of_instrs {f : FuncId} {n m : Nat} {p q : Program} {names : Names}
    {made : List (InstrId × InstrSyntax)} (h : Resolving f n p names made)
    (hinstr : ∀ i, q.instr i = p.instr i) (huses : ∀ v, q.usesOf v = p.usesOf v)
    (hblock : ∀ b, (q.block b).instrs = (p.block b).instrs) (harranged : q.Arranged)
    (hfunc : ∀ f', (p.func f').blocks.size ≤ (q.func f').blocks.size ∧
      (q.func f').ret = (p.func f').ret) (hm : (q.func f).blocks.size = m) :
    Resolving f m q names made := by
  refine ⟨h.coherent.of_instrs hinstr huses hblock harranged (fun f' => (hfunc f').1) fun f' => ?_,
    h.ordered.of_instrs hinstr, h.stores.of_instrs hinstr, hm, ?_, ?_, h.distinct⟩
  · rw [(hfunc f').2]
    exact h.coherent.named f'
  · intro e he
    have husable := h.named e he
    cases hv : e.2 with
    | instr d =>
      rw [hv] at husable
      rw [Program.usable_instr, hinstr]
      exact husable
    | _ => trivial
  · intro e he
    rw [hinstr]
    exact h.pending e he

theorem yields_resolveParams {f : FuncId} (l : List ParamSyntax) (p : Program) (names : Names)
    (h : Resolving f 0 p names []) :
    Yields (resolveParams f names l) p fun names' q =>
      Resolving f 0 q names' [] ∧ q.funcs.size = p.funcs.size := by
  induction l generalizing p names with
  | nil =>
    rw [resolveParams, yields_pure]
    exact ⟨h, rfl⟩
  | cons a rest ih =>
    have hfunc : ∀ f', ((p.addParam f a.name a.ty).2.func f').blocks = (p.func f').blocks ∧
        ((p.addParam f a.name a.ty).2.func f').ret = (p.func f').ret := by
      intro f'
      rw [p.func_addParam]
      split <;> exact ⟨rfl, rfl⟩
    have hadded : Resolving f 0 (p.addParam f a.name a.ty).2 names [] := by
      refine h.of_instrs (fun _ => rfl) (fun _ => rfl) (fun b => ?_)
        (h.coherent.addParam f a.name a.ty)
        (fun f' => ⟨Nat.le_of_eq (congrArg Array.size (hfunc f').1.symm), (hfunc f').2⟩) ?_
      · rw [p.block_addParam]
      · rw [(hfunc f).1]
        exact h.blocks
    have hnamed : Resolving f 0 (p.addParam f a.name a.ty).2
        (names ++ [(a.name, .param p.params.size)]) [] := by
      refine { hadded with named := fun e he => ?_ }
      rcases List.mem_append.mp he with he | he
      · exact hadded.named e he
      · rw [List.mem_singleton.mp he]
        trivial
    rw [resolveParams]
    dsimp only
    split
    · exact yields_reject_bind _ _ _
    · rw [yields_bind, yields_modifyGet]
      refine (ih _ _ hnamed).mono fun names' q hq => ⟨hq.1, hq.2.trans ?_⟩
      exact Array.size_modify

theorem yields_resolveBlocks {f : FuncId} (l : List BlockSyntax) (n : Nat) (p : Program)
    (names : Names) (hf : f < p.funcs.size) (h : Resolving f n p names []) :
    Yields (resolveBlocks f l) p fun _ q => Resolving f (n + l.length) q names [] := by
  induction l generalizing n p with
  | nil =>
    rw [resolveBlocks, yields_pure]
    exact h
  | cons b rest ih =>
    have hadded : Resolving f (n + 1) (p.addBlock f b.name).2 names [] := by
      refine h.of_instrs (fun _ => rfl) (fun _ => rfl) (p.instrs_addBlock f b.name)
        (h.coherent.addBlock f b.name) (fun f' => ?_) ?_
      · rw [p.func_addBlock]
        split
        · rw [Array.size_push]
          exact ⟨Nat.le_succ _, rfl⟩
        · exact ⟨Nat.le_refl _, rfl⟩
      · rw [p.func_addBlock, if_pos ⟨rfl, hf⟩]
        exact (Array.size_push _).trans (congrArg (· + 1) h.blocks)
    rw [resolveBlocks, yields_bind, yields_get]
    dsimp only
    split
    · exact yields_reject_bind _ _ _
    · rw [yields_bind, yields_discard, yields_modifyGet]
      have hf' : f < (p.addBlock f b.name).2.funcs.size :=
        Nat.lt_of_lt_of_eq hf Array.size_modify.symm
      refine (ih (n + 1) _ hf' hadded).mono fun _ q hq => ?_
      rw [List.length_cons, Nat.add_comm rest.length, ← Nat.add_assoc]
      exact hq

/-- Adding a function to a program. -/
theorem yields_resolveFunc {fn : FuncSyntax} (hfn : fn.Shaped) {p : Program} (h : p.WellFormed)
    (hord : p.Ordered) : Yields (resolveFunc fn) p fun _ q => q.WellFormed ∧ q.Ordered := by
  have hadded := resolving_addFunc h hord fn.name hfn.ret
  unfold resolveFunc
  rw [yields_bind, yields_get]
  dsimp only
  split
  · exact yields_reject_bind _ _ _
  · rw [yields_bind, yields_modifyGet, yields_bind]
    refine (yields_resolveParams fn.params _ [] hadded).mono fun names q hq => ?_
    obtain ⟨hparams, hsize⟩ := hq
    have hf : p.funcs.size < q.funcs.size := by
      rw [hsize]
      exact Nat.lt_of_lt_of_eq (Nat.lt_succ_self _) (Array.size_push _).symm
    rw [yields_bind]
    refine (yields_resolveBlocks fn.blocks 0 q names hf hparams).mono fun _ q₁ hblocks => ?_
    rw [yields_bind]
    refine (yields_resolveBodies fn.blocks hfn.instrs 0 (Nat.le_refl _) q₁ names [] hblocks).mono
      fun r q₂ hbodies => ?_
    exact yields_resolveUses r.2 q₂ hbodies

theorem yields_resolveFuncs (l : List FuncSyntax) (hl : ∀ fn ∈ l, fn.Shaped) (p : Program)
    (h : p.WellFormed) (hord : p.Ordered) :
    Yields (resolveFuncs l) p fun _ q => q.WellFormed ∧ q.Ordered := by
  induction l generalizing p with
  | nil =>
    rw [resolveFuncs, yields_pure]
    exact ⟨h, hord⟩
  | cons fn rest ih =>
    rw [resolveFuncs, yields_bind]
    refine (yields_resolveFunc (hl fn List.mem_cons_self) h hord).mono fun _ q hq => ?_
    exact ih (fun fn' hfn' => hl fn' (List.mem_cons_of_mem fn hfn')) q hq.1 hq.2

/-- Before the functions there are no instructions. -/
theorem wellFormed_declareGlobals (name : String) (globals : List GlobalSyntax) :
    (declareGlobals name globals).WellFormed ∧ (declareGlobals name globals).Ordered := by
  have hempty : ∀ p : Program, p.funcs = #[] ∧ p.instrs = {} ∧ p.links = {} ∧ p.uses = {} →
      ∀ q : Program, q = globals.foldl (fun p g => (p.addGlobal g.name g.elem).2) p →
        q.funcs = #[] ∧ q.instrs = {} ∧ q.links = {} ∧ q.uses = {} := by
    induction globals with
    | nil =>
      rintro p hp q rfl
      exact hp
    | cons g rest ih => exact fun p hp q hq => ih (p.addGlobal g.name g.elem).2 hp q hq
  obtain ⟨hfuncs, hinstrs, hlinks, huses⟩ := hempty (Program.empty name) ⟨rfl, rfl, rfl, rfl⟩ _ rfl
  obtain ⟨hcoherent, hordered⟩ := Program.coherent_of_empty hfuncs hinstrs hlinks huses
  refine ⟨hcoherent.wellFormed fun i b hi => ?_, hordered⟩
  have hlt := Program.lt_size_of_inBlock hi
  change i < (declareGlobals name globals).instrs.size at hlt
  rw [declareGlobals, hinstrs] at hlt
  exact absurd hlt (Nat.not_lt_zero i)

theorem wellFormed_of_resolve {name : String} {s : ProgramSyntax} {p : Program}
    (hs : ∀ fn ∈ s.funcs, fn.Shaped) (h : s.resolve name = .ok p) : p.WellFormed ∧ p.Ordered := by
  obtain ⟨hwf, hord⟩ := wellFormed_declareGlobals name s.globals
  have hfuncs := yields_resolveFuncs s.funcs hs _ hwf hord
  cases hrun : resolveFuncs s.funcs (declareGlobals name s.globals) with
  | error e =>
    have herror : s.resolve name = .error e := by
      change (resolveFuncs s.funcs (declareGlobals name s.globals) >>= fun r => pure r.2) = _
      rw [hrun]
      rfl
    rw [herror] at h
    cases h
  | ok r =>
    have hok : s.resolve name = .ok r.2 := by
      change (resolveFuncs s.funcs (declareGlobals name s.globals) >>= fun r => pure r.2) = _
      rw [hrun]
      rfl
    rw [hok] at h
    obtain rfl : r.2 = p := Except.ok.inj h
    exact hfuncs r.1 r.2 hrun

end Functions

end Midend.Source

namespace Midend

/-- **The program of an accepted text is well-formed, and definitions precede uses.** -/
theorem Program.wellFormed_of_parse {name : String} {src : ByteArray} {p : Program}
    (h : Program.parse name src = .ok p) : p.WellFormed ∧ p.Ordered := by
  unfold Program.parse at h
  split at h
  · next q hq =>
    obtain rfl : q = p := Except.ok.inj h
    cases hread : Source.ProgramSyntax.parse (Text.Symbol.ofBytes src) with
    | error e =>
      rw [hread] at hq
      cases hq
    | ok s =>
      rw [hread] at hq
      exact Source.wellFormed_of_resolve (Source.ProgramSyntax.shaped_of_parse hread) hq
  · cases h

/-- What was computed of the program of an accepted text. -/
theorem Program.exists_of_parse {name : String} {src : ByteArray} {f : Program → Bool}
    (h : ((Program.parse name src).toOption.any f) = true) :
    ∃ p, Program.parse name src = .ok p ∧ f p = true := by
  cases hparse : Program.parse name src with
  | error e =>
    rw [hparse] at h
    cases h
  | ok p =>
    rw [hparse] at h
    exact ⟨p, rfl, h⟩

end Midend
