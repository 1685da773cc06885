import Midend.Proofs.Source.Resolvable
import Midend.Proofs.Source.ResolvedPrograms

/-!
# Drafts of a function

While a function is resolved, the program is the one before with a draft of the function behind it:
parameters, blocks and instructions are listed in the order of the text and numbered without gaps, and
no instruction has operands or targets yet.  The steps of the resolution add to these lists, and
everything that the resolution looks up can be read off them.

## Main definitions

* `FuncSyntax.sites`: the instructions of a function, each with the position of its block.
* `instrsOf`, `blocksOf`, `linksOf`: what is made for them.
* `Program.draft`: the program with a draft behind it.

## Main results

* `Program.addParam_draft`, `Program.addBlock_draft`, `Program.extend_draft`: the steps.
* `Program.instr_draft`, `Program.isSome_findBlock?_draft`: what is looked up.
-/

namespace Midend

/-! ### Writing to the end of a list -/

theorem modify_push {α : Type} (a : Array α) (x : α) (g : α → α) :
    (a.push x).modify a.size g = a.push (g x) := by
  apply Array.ext
  · simp
  · intro i hi hi'
    rw [Array.getElem_modify]
    simp only [Array.getElem_push]
    grind

theorem modify_append_cons {α : Type} (done rest : List α) (x : α) (g : α → α) :
    (done ++ x :: rest).modify done.length g = done ++ g x :: rest := by
  induction done with
  | nil => rfl
  | cons d done ih => simp [ih]

theorem Table.modify_push {α : Type} [Inhabited α] (t : Table α) (x : α) (g : α → α) :
    (t.push x).modify t.size g = t.push (g x) := by
  have hset : (t.cells.push x).setIfInBounds t.cells.size (g x) = t.cells.push (g x) := by
    apply Array.ext
    · simp
    · intro i hi hi'
      simp only [Array.getElem_push]
      grind
  simp [Table.modify, Table.set, Table.get, Table.push, Table.size, Array.getD_eq_getD_getElem?, hset]

theorem Table.size_append {α : Type} (t : Table α) (l : List α) :
    (Table.mk (t.cells ++ l.toArray)).size = t.size + l.length := by
  simp [Table.size]

/-- Reading behind the end of a table that was continued by a list. -/
theorem Table.get_append {α : Type} [Inhabited α] (t : Table α) (l : List α) (j : Nat) :
    (Table.mk (t.cells ++ l.toArray)).get (t.size + j) = l[j]?.getD default := by
  have hj : ¬t.cells.size + j < t.cells.size := by omega
  simp [Table.get, Table.size, Array.getD_eq_getD_getElem?, Array.getElem?_append, hj]

theorem Table.get_append_of_lt {α : Type} [Inhabited α] (t : Table α) (l : List α) {j : Nat}
    (hj : j < t.size) : (Table.mk (t.cells ++ l.toArray)).get j = t.get j := by
  have hj' : j < t.cells.size := hj
  simp [Table.get, Array.getD_eq_getD_getElem?, Array.getElem?_append, hj']

/-! ### What is made for a function -/

namespace Source

open Resolving (instrOf)

/-- The instructions of blocks, each with the position of its block, where the first block stands at
position `k`. -/
def sitesFrom (k : Nat) : List BlockSyntax → List (Nat × InstrSyntax)
  | [] => []
  | b :: bs => b.instrs.map (k, ·) ++ sitesFrom (k + 1) bs

/-- The instructions of a function, each with the position of its block. -/
def FuncSyntax.sites (fn : FuncSyntax) : List (Nat × InstrSyntax) := sitesFrom 0 fn.blocks

theorem map_snd_sitesFrom (k : Nat) (bs : List BlockSyntax) :
    (sitesFrom k bs).map Prod.snd = bs.flatMap (·.instrs) := by
  induction bs generalizing k with
  | nil => rfl
  | cons b bs ih => simp [sitesFrom, ih, Function.comp_def]

theorem FuncSyntax.map_snd_sites (fn : FuncSyntax) : fn.sites.map Prod.snd = fn.instrs :=
  map_snd_sitesFrom 0 fn.blocks

theorem FuncSyntax.length_sites (fn : FuncSyntax) : fn.sites.length = fn.instrs.length := by
  rw [← fn.map_snd_sites, List.length_map]

/-- The instruction that is made for a piece of syntax in a block, where `n` instructions of the
function come before it. -/
def instrAt (b : BlockRef) (n : Nat) (i : InstrSyntax) : Instr :=
  { instrOf i with id := n + 1, place := .inBlock b }

/-- The instructions that are made for a list of sites, `n` others being there already. -/
def instrsOf (f : FuncId) (n : Nat) (sites : List (Nat × InstrSyntax)) : List Instr :=
  (sites.zipIdx n).map fun e => instrAt ⟨f, e.1.1⟩ e.2 e.1.2

/-- The block that is made at position `k`, where `n` is the first number for an instruction. -/
def blockOf (k n : Nat) (b : BlockSyntax) : Block :=
  Block.listing { id := k, name := b.name } (List.range' n b.instrs.length)

/-- The blocks that are made from position `k` on, where `n` is the first number for an instruction. -/
def blocksOf (k n : Nat) : List BlockSyntax → List Block
  | [] => []
  | b :: bs => blockOf k n b :: blocksOf (k + 1) (n + b.instrs.length) bs

/-- The blocks that are made from position `k` on, before their instructions are made. -/
def bareBlocks (k : Nat) : List BlockSyntax → List Block
  | [] => []
  | b :: bs => { id := k, name := b.name } :: bareBlocks (k + 1) bs

/-- The links once an instruction is linked behind the last one of its block. -/
def linkBehind (ls : Table Links) (last : Option InstrId) (n : InstrId) : Table Links :=
  relink (ls.modify n fun x => { x with prev := last }) (fun x => { x with next := some n }) last

/-- The links once some instructions, the first with the number `n`, are linked behind the last one of
their block. -/
def linksFrom (ls : Table Links) (last : Option InstrId) (n : InstrId) : Nat → Table Links
  | 0 => ls
  | k + 1 => linksFrom (linkBehind ls last n) (some n) (n + 1) k

/-- The links once the instructions of blocks are made, where `n` is the first number for one. -/
def linksOf (ls : Table Links) (n : Nat) : List BlockSyntax → Table Links
  | [] => ls
  | b :: bs => linksOf (linksFrom ls none n b.instrs.length) (n + b.instrs.length) bs

/-- Instructions with their numbers. -/
def enumerate (n : Nat) (l : List InstrSyntax) : List (InstrId × InstrSyntax) :=
  (l.zipIdx n).map Prod.swap

/-- The names of results. -/
def resultNames (made : List (InstrId × InstrSyntax)) : Names :=
  made.filterMap fun e => e.2.defines.map (·, .instr e.1)

/-- The names of parameters, where `n` is the number of the first one. -/
def paramNames (n : Nat) (l : List ParamSyntax) : Names :=
  (l.zipIdx n).map fun e => (e.1.name, .param e.2)

/-- The names of the values of a function. -/
def FuncSyntax.names (fn : FuncSyntax) (pbase ibase : Nat) : Names :=
  paramNames pbase fn.params ++ resultNames (enumerate ibase fn.instrs)

theorem instrsOf_append (f : FuncId) (n : Nat) (l l' : List (Nat × InstrSyntax)) :
    instrsOf f n (l ++ l') = instrsOf f n l ++ instrsOf f (n + l.length) l' := by
  simp [instrsOf, List.zipIdx_append]

theorem length_instrsOf (f : FuncId) (n : Nat) (l : List (Nat × InstrSyntax)) :
    (instrsOf f n l).length = l.length := by
  simp [instrsOf]

theorem getElem?_instrsOf (f : FuncId) (l : List (Nat × InstrSyntax)) (j : Nat) :
    (instrsOf f 0 l)[j]? = l[j]?.map fun e => instrAt ⟨f, e.1⟩ j e.2 := by
  simp [instrsOf, List.getElem?_zipIdx, Function.comp_def]

theorem map_name_blocksOf (k n : Nat) (bs : List BlockSyntax) :
    (blocksOf k n bs).map (·.name) = bs.map (·.name) := by
  induction bs generalizing k n with
  | nil => rfl
  | cons b bs ih => simp [blocksOf, blockOf, Block.listing, ih]

theorem flatMap_instrs_blocksOf (k n : Nat) (bs : List BlockSyntax) :
    (blocksOf k n bs).flatMap (·.instrs) = List.range' n (bs.flatMap (·.instrs)).length := by
  induction bs generalizing k n with
  | nil => rfl
  | cons b bs ih => simp [blocksOf, blockOf, Block.listing, ih]

theorem enumerate_cons (n : Nat) (i : InstrSyntax) (l : List InstrSyntax) :
    enumerate n (i :: l) = (n, i) :: enumerate (n + 1) l := by
  simp [enumerate, List.zipIdx_cons]

theorem enumerate_append (n : Nat) (l l' : List InstrSyntax) :
    enumerate n (l ++ l') = enumerate n l ++ enumerate (n + l.length) l' := by
  simp [enumerate, List.zipIdx_append]

theorem mem_enumerate {n : Nat} {l : List InstrSyntax} {e : InstrId × InstrSyntax} :
    e ∈ enumerate n l ↔ ∃ j, e.1 = n + j ∧ l[j]? = some e.2 := by
  have hswap : e ∈ enumerate n l ↔ (e.2, e.1) ∈ l.zipIdx n := by
    simp only [enumerate, List.mem_map]
    constructor
    · rintro ⟨x, hx, rfl⟩
      exact hx
    · exact fun h => ⟨_, h, rfl⟩
  rw [hswap, List.mem_zipIdx_iff_le_and_getElem?_sub]
  constructor
  · rintro ⟨hle, hj⟩
    exact ⟨e.1 - n, (Nat.add_sub_cancel' hle).symm, hj⟩
  · rintro ⟨j, hj, hl⟩
    dsimp only
    rw [hj, Nat.add_sub_cancel_left]
    exact ⟨Nat.le_add_right n j, hl⟩

theorem map_fst_enumerate (n : Nat) (l : List InstrSyntax) :
    (enumerate n l).map Prod.fst = List.range' n l.length := by
  rw [enumerate, List.map_map, ← List.zipIdx_map_snd]
  rfl

theorem map_snd_enumerate (n : Nat) (l : List InstrSyntax) :
    (enumerate n l).map Prod.snd = l := by
  rw [enumerate, List.map_map]
  exact List.zipIdx_map_fst n l

theorem map_fst_resultNames (n : Nat) (l : List InstrSyntax) :
    (resultNames (enumerate n l)).map Prod.fst = l.filterMap InstrSyntax.defines := by
  induction l generalizing n with
  | nil => rfl
  | cons i l ih =>
    rw [enumerate_cons, resultNames, List.filterMap_cons, List.filterMap_cons]
    cases i.defines with
    | none => exact ih (n + 1)
    | some name => exact congrArg (name :: ·) (ih (n + 1))

theorem map_fst_paramNames (n : Nat) (l : List ParamSyntax) :
    (paramNames n l).map Prod.fst = l.map (·.name) := by
  induction l generalizing n with
  | nil => rfl
  | cons a l ih => simpa [paramNames, List.zipIdx_cons] using ih (n + 1)

theorem FuncSyntax.map_fst_names (fn : FuncSyntax) (pbase ibase : Nat) :
    (fn.names pbase ibase).map Prod.fst = fn.valueNames := by
  rw [names, List.map_append, map_fst_paramNames, map_fst_resultNames, valueNames]

/-- A name stands for an instruction just if the instruction defines it. -/
theorem FuncSyntax.mem_names_instr {fn : FuncSyntax} {pbase ibase : Nat} {name : String}
    {d : InstrId} : (name, .instr d) ∈ fn.names pbase ibase ↔
      ∃ j x, d = ibase + j ∧ fn.instrs[j]? = some x ∧ x.defines = some name := by
  have hparam : (name, Value.instr d) ∉ paramNames pbase fn.params := by
    simp [paramNames]
  rw [names, List.mem_append, or_iff_right hparam, resultNames, List.mem_filterMap]
  constructor
  · rintro ⟨e, he, hdef⟩
    obtain ⟨n, hn, hpair⟩ := Option.map_eq_some_iff.mp hdef
    cases hpair
    obtain ⟨j, hj, hx⟩ := mem_enumerate.mp he
    exact ⟨j, e.2, hj, hx, hn⟩
  · rintro ⟨j, x, rfl, hx, hdef⟩
    exact ⟨(ibase + j, x), mem_enumerate.mpr ⟨j, rfl, hx⟩, by simp [hdef]⟩

/-- A name stands for a parameter just if the parameter has it. -/
theorem FuncSyntax.mem_names_param {fn : FuncSyntax} {pbase ibase : Nat} {name : String}
    {d : ParamId} : (name, .param d) ∈ fn.names pbase ibase ↔
      ∃ j a, d = pbase + j ∧ fn.params[j]? = some a ∧ a.name = name := by
  have hresult : (name, Value.param d) ∉ resultNames (enumerate ibase fn.instrs) := by
    simp [resultNames]
  rw [names, List.mem_append, or_iff_left hresult, paramNames, List.mem_map]
  constructor
  · rintro ⟨e, he, hpair⟩
    obtain ⟨hle, ha⟩ := List.mem_zipIdx_iff_le_and_getElem?_sub.mp he
    cases hpair
    exact ⟨e.2 - pbase, e.1, (Nat.add_sub_cancel' hle).symm, ha, rfl⟩
  · rintro ⟨j, a, rfl, ha, rfl⟩
    refine ⟨(a, pbase + j), List.mem_zipIdx_iff_le_and_getElem?_sub.mpr ⟨by simp, ?_⟩, rfl⟩
    simpa using ha

end Source

/-! ### Drafts -/

namespace Program

open Source

variable {p : Program} {fn : FuncSyntax} {ps : List Param} {bs : List Block} {is : List Instr}
  {ls : Table Links}

/-- The program `p` with one more function, which has the given parameters, blocks and instructions so
far, and with the given links. -/
def draft (p : Program) (fn : FuncSyntax) (ps : List Param) (bs : List Block) (is : List Instr)
    (ls : Table Links) : Program :=
  { p with
    funcs := p.funcs.push
      { name := fn.name, ret := fn.ret, params := List.range' p.params.size ps.length,
        blocks := bs.toArray, lastId := is.length }
    params := ⟨p.params.cells ++ ps.toArray⟩
    instrs := ⟨p.instrs.cells ++ is.toArray⟩
    links := ls }

theorem addFunc_eq (p : Program) (fn : FuncSyntax) :
    p.addFunc fn.name fn.ret = (p.funcs.size, p.draft fn [] [] [] p.links) := by
  simp [addFunc, draft]

theorem addParam_draft (name : String) (ty : Ty) :
    (p.draft fn ps bs is ls).addParam p.funcs.size name ty =
      (p.params.size + ps.length, p.draft fn (ps ++ [⟨name, ty⟩]) bs is ls) := by
  simp [addParam, draft, modifyFunc, modify_push, Table.push, Table.size, List.range'_concat]

theorem addBlock_draft (name : String) :
    (p.draft fn ps bs is ls).addBlock p.funcs.size name =
      (⟨p.funcs.size, bs.length⟩, p.draft fn ps (bs ++ [{ id := bs.length, name := name }]) is ls) := by
  simp [addBlock, draft, modifyFunc, modify_push, func]

theorem size_instrs_draft : (p.draft fn ps bs is ls).instrs.size = p.instrs.size + is.length :=
  Table.size_append _ _

/-- A new instruction at the end of a block of the draft. -/
theorem extend_draft {done rest : List Block} (b : Block) (l : List InstrId) (i : InstrSyntax) :
    (p.draft fn ps (done ++ b.listing l :: rest) is ls).extend ⟨p.funcs.size, done.length⟩
        (Resolving.instrOf i) =
      p.draft fn ps (done ++ b.listing (l ++ [p.instrs.size + is.length]) :: rest)
        (is ++ [instrAt ⟨p.funcs.size, done.length⟩ is.length i])
        (linkBehind ls l.getLast? (p.instrs.size + is.length)) := by
  have hpush : ((Table.mk (p.instrs.cells ++ is.toArray)).push (Resolving.instrOf i)).modify
      (p.instrs.size + is.length)
        (fun x => { x with id := is.length + 1, place := .inBlock ⟨p.funcs.size, done.length⟩ }) =
      ⟨p.instrs.cells ++ (is ++ [instrAt ⟨p.funcs.size, done.length⟩ is.length i]).toArray⟩ := by
    rw [← Table.size_append, Table.modify_push]
    simp [Table.push, instrAt]
  unfold extend addInstr appendTo attach linkLast
  rcases List.eq_nil_or_concat l with rfl | ⟨front, last, rfl⟩
  · simp [draft, Block.listing, leadOn, linkBehind, relink, modifyInstr, modifyLinks, modifyBlock,
      modifyFunc, modify_push, func, block, modify_append_cons, hpush, Table.size_append]
  · simp [draft, Block.listing, leadOn, linkBehind, relink, modifyInstr, modifyLinks, modifyBlock,
      modifyFunc, modify_push, func, block, modify_append_cons, hpush, Table.size_append]

theorem func_draft : (p.draft fn ps bs is ls).func p.funcs.size =
    { name := fn.name, ret := fn.ret, params := List.range' p.params.size ps.length,
      blocks := bs.toArray, lastId := is.length } := by
  simp [draft, func]

theorem instr_draft (j : Nat) :
    (p.draft fn ps bs is ls).instr (p.instrs.size + j) = is[j]?.getD default :=
  Table.get_append p.instrs is j

theorem isSome_findBlock?_draft (name : String) :
    ((p.draft fn ps bs is ls).findBlock? p.funcs.size name).isSome ↔ name ∈ bs.map (·.name) := by
  simp [findBlock?, func_draft]

/-- The last instruction of a block decides whether it jumps. -/
theorem isSome_terminator?_draft {done rest : List Block} (b : Block) (l : List InstrId) (x : Instr) :
    ((p.draft fn ps (done ++ b.listing (l ++ [p.instrs.size + is.length]) :: rest)
      (is ++ [x]) ls).terminator? ⟨p.funcs.size, done.length⟩).isSome = x.op.isTerminator := by
  have hblock : (p.draft fn ps (done ++ b.listing (l ++ [p.instrs.size + is.length]) :: rest)
      (is ++ [x]) ls).block ⟨p.funcs.size, done.length⟩ =
        b.listing (l ++ [p.instrs.size + is.length]) := by
    simp [block, func_draft]
  rw [terminator?, hblock]
  cases hx : x.op.isTerminator <;> simp [Block.listing, Option.filter, instr_draft, hx]

end Program

end Midend
