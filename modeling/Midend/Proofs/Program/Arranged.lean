import Mathlib.Data.List.Perm.Subperm
import Midend.Proofs.Program.UseLists

/-!
# Arranged programs

A block lists its instructions, and the same is said in other words by the places of instructions, by
their links, and by what the block knows about its ends and its size.  The operations write each of these
on its own.  In an arranged program they agree, and each operation that puts an instruction into a block
or takes one out leaves it arranged: seen from outside, it changes one list.

## Main definitions

* `Block.listing`: a block with another list.
* `Program.Arranged`: lists, places, links, ends and sizes agree.
* `Program.SameButOperands`: programs that differ in operands and use-lists only.

## Main results

* `Arranged.block_appendTo`, `Arranged.block_insertInto`, `Arranged.block_detach`: what becomes of the blocks.
* `Arranged.appendTo`, `Arranged.insertInto`, `Arranged.detach`: the program stays arranged.
* `Arranged.chain_eq`: the links of a block lead through its list.
-/

namespace Midend

/-- A block with another list. -/
def Block.listing (blk : Block) (l : List InstrId) : Block :=
  { blk with instrs := l, head := l.head?, tail := l.getLast?, size := l.length }

namespace Program

variable {p q : Program}

/-! ### Blocks and functions -/

/-- Programs with the same functions have the same blocks. -/
theorem block_congr (h : q.funcs = p.funcs) (b : BlockRef) : q.block b = p.block b := by
  unfold block func
  rw [h]

theorem func_congr (h : q.funcs = p.funcs) (f : FuncId) : q.func f = p.func f := by
  unfold func
  rw [h]

/-- A block with instructions is there. -/
theorem hasBlock_of_mem {i : InstrId} {b : BlockRef} (h : i ∈ (p.block b).instrs) : p.HasBlock b := by
  refine Decidable.not_not.mp fun hb => ?_
  rw [block_of_not_hasBlock hb] at h
  cases h

/-- The instructions of a function are those of its blocks. -/
theorem mem_funcInstrs {i : InstrId} {f : FuncId} :
    i ∈ p.funcInstrs f ↔ ∃ k, i ∈ (p.block ⟨f, k⟩).instrs := by
  unfold funcInstrs
  rw [List.mem_flatMap]
  constructor
  · rintro ⟨blk, hblk, hi⟩
    obtain ⟨k, hk⟩ := List.getElem?_of_mem hblk
    refine ⟨k, ?_⟩
    rw [block, Array.getD_eq_getD_getElem?, ← Array.getElem?_toList, hk]
    exact hi
  · rintro ⟨k, hi⟩
    have hk : k < (p.func f).blocks.size := hasBlock_of_mem hi
    refine ⟨p.block ⟨f, k⟩, ?_, hi⟩
    rw [block, Array.getD_eq_getD_getElem?, Array.getElem?_eq_getElem hk]
    exact Array.mem_toList_iff.mpr (Array.getElem_mem hk)

/-- The instructions of a function, block by block. -/
theorem toList_blocks (p : Program) (f : FuncId) :
    (p.func f).blocks.toList = (p.blockRefs f).map p.block := by
  apply List.ext_getElem
  · simp [blockRefs]
  · intro k hk _
    have hk : k < (p.func f).blocks.size := hk
    simp [blockRefs, block, hk]

theorem funcInstrs_eq_flatMap (p : Program) (f : FuncId) :
    p.funcInstrs f = (p.blockRefs f).flatMap fun b => (p.block b).instrs := by
  rw [funcInstrs, toList_blocks, List.flatMap_map]

/-- Instructions that were not made yet. -/
theorem instr_of_size_le {i : InstrId} (h : p.instrs.size ≤ i) : p.instr i = default := by
  rw [instr, Table.get, Array.getD_eq_getD_getElem?, Array.getElem?_eq_none h]
  rfl

theorem lt_size_of_inBlock {i : InstrId} {b : BlockRef} (h : (p.instr i).place = .inBlock b) :
    i < p.instrs.size := by
  refine Nat.lt_of_not_le fun hle => ?_
  rw [instr_of_size_le hle] at h
  cases h

/-! ### What operations leave alone -/

theorem exists_unregisterFrom (i : InstrId) (k : Nat) (vs : List (Option Value)) (p : Program) :
    ∃ us, p.unregisterFrom i k vs = { p with uses := us } := by
  induction vs generalizing p k with
  | nil => exact ⟨_, rfl⟩
  | cons v vs ih =>
    cases v with
    | none => exact ih (k + 1) p
    | some v => exact ih (k + 1) (p.removeUse v ⟨i, k⟩)

theorem exists_registerFrom (i : InstrId) (k : Nat) (vs : List (Option Value)) (p : Program) :
    ∃ us, p.registerFrom i k vs = { p with uses := us } := by
  induction vs generalizing p k with
  | nil => exact ⟨_, rfl⟩
  | cons v vs ih =>
    cases v with
    | none => exact ih (k + 1) p
    | some v => exact ih (k + 1) (p.addUse v ⟨i, k⟩)

/-- Taking operands away touches instructions and use-lists only. -/
theorem exists_dropOperands (p : Program) (i : InstrId) :
    ∃ is us, p.dropOperands i = { p with instrs := is, uses := us } := by
  obtain ⟨us, heq⟩ := exists_unregisterFrom i 0 (p.instr i).operands p
  unfold dropOperands
  rw [heq]
  exact ⟨_, _, rfl⟩

theorem exists_moveSlots (new : Value) (slots : List Use) (p : Program) :
    ∃ is us, p.moveSlots new slots = { p with instrs := is, uses := us } := by
  induction slots generalizing p with
  | nil => exact ⟨_, _, rfl⟩
  | cons slot slots ih =>
    obtain ⟨is, us, heq⟩ := ih ((p.writeSlot slot (some new)).addUse new slot)
    exact ⟨is, us, heq⟩

/-- So does moving uses. -/
theorem exists_redirect (p : Program) (old new : Value) :
    ∃ is us, p.redirect old new = { p with instrs := is, uses := us } := by
  unfold redirect
  split
  · exact ⟨_, _, rfl⟩
  · obtain ⟨is, us, heq⟩ := exists_moveSlots new (p.usesOf old) { p with uses := p.uses.set old [] }
    exact ⟨is, us, heq⟩

/-- So does replacing an operand. -/
theorem exists_replaceOperand (p : Program) (slot : Use) (v : Value) :
    ∃ is us, p.replaceOperand slot v = { p with instrs := is, uses := us } := by
  rw [replaceOperand_eq]
  unfold vacate
  split
  · exact ⟨_, _, rfl⟩
  · exact ⟨_, _, rfl⟩

/-- Erasing touches functions and links as well. -/
theorem exists_detach (p : Program) (i : InstrId) :
    ∃ fs is ls us, p.detach i = { p with funcs := fs, instrs := is, links := ls, uses := us } := by
  obtain ⟨is, us, heq⟩ := p.exists_dropOperands i
  dsimp only [detach]
  rw [heq]
  split
  · next b _ =>
    obtain ⟨fs, ls, hunlink⟩ := (relinked_unlink _ b i).frame
    rw [hunlink]
    exact ⟨_, _, _, _, rfl⟩
  · exact ⟨_, _, _, _, rfl⟩

theorem funcs_dropOperands (p : Program) (i : InstrId) : (p.dropOperands i).funcs = p.funcs := by
  obtain ⟨is, us, heq⟩ := p.exists_dropOperands i
  rw [heq]

theorem funcs_redirect (p : Program) (old new : Value) : (p.redirect old new).funcs = p.funcs := by
  obtain ⟨is, us, heq⟩ := p.exists_redirect old new
  rw [heq]

theorem funcs_replaceOperand (p : Program) (slot : Use) (v : Value) :
    (p.replaceOperand slot v).funcs = p.funcs := by
  obtain ⟨is, us, heq⟩ := p.exists_replaceOperand slot v
  rw [heq]

/-! ### Changing operands -/

/-- `q` differs from `p` in operands and use-lists only. -/
structure SameButOperands (p q : Program) : Prop where
  /-- The functions are the same. -/
  funcs : q.funcs = p.funcs
  /-- So are the links. -/
  links : q.links = p.links
  /-- The instructions are the same but for their operands. -/
  instr : ∀ i, ∃ ops, q.instr i = { p.instr i with operands := ops }

namespace SameButOperands

theorem refl (p : Program) : SameButOperands p p := ⟨rfl, rfl, fun _ => ⟨_, rfl⟩⟩

variable {q : Program} (h : SameButOperands p q)

include h

theorem place (i : InstrId) : (q.instr i).place = (p.instr i).place := by
  obtain ⟨ops, heq⟩ := h.instr i
  rw [heq]

theorem op (i : InstrId) : (q.instr i).op = (p.instr i).op := by
  obtain ⟨ops, heq⟩ := h.instr i
  rw [heq]

theorem ty (i : InstrId) : (q.instr i).ty = (p.instr i).ty := by
  obtain ⟨ops, heq⟩ := h.instr i
  rw [heq]

theorem targets (i : InstrId) : (q.instr i).targets = (p.instr i).targets := by
  obtain ⟨ops, heq⟩ := h.instr i
  rw [heq]

theorem trans {r : Program} (h' : SameButOperands q r) : SameButOperands p r where
  funcs := h'.funcs.trans h.funcs
  links := h'.links.trans h.links
  instr i := by
    obtain ⟨ops, heq⟩ := h.instr i
    obtain ⟨ops', heq'⟩ := h'.instr i
    exact ⟨ops', by rw [heq', heq]⟩

theorem next? (i : InstrId) : q.next? i = p.next? i := by
  rw [Program.next?, Program.next?, h.links]

/-- Only operands have changed, so the jumps have not. -/
theorem successors (b : BlockRef) : q.successors b = p.successors b := by
  have hterminator : q.terminator? b = p.terminator? b := by
    unfold terminator?
    rw [block_congr h.funcs]
    refine congrArg (fun test => Option.filter test _) (funext fun i => ?_)
    rw [h.op]
  unfold Program.successors
  rw [hterminator]
  split
  · rw [h.targets]
  · rfl

end SameButOperands

/-! ### Lists, places and links -/

/-- Lists, places, links, ends and sizes agree. -/
structure Arranged (p : Program) : Prop where
  /-- A block lists the instructions that are placed in it. -/
  listed : ∀ b i, i ∈ (p.block b).instrs ↔ (p.instr i).place = .inBlock b
  /-- It lists none twice. -/
  nodup : ∀ b, (p.block b).instrs.Nodup
  /-- The links lead through the list, both ways. -/
  threaded : ∀ b, Threaded p.links none (p.block b).instrs none
  /-- The block knows its ends and its size. -/
  ends : ∀ b, p.block b = (p.block b).listing (p.block b).instrs
  /-- It is numbered by its position. -/
  number : ∀ b, p.HasBlock b → (p.block b).id = b.index
  /-- A loose instruction has no neighbours. -/
  loose : ∀ i, (p.instr i).place = .detached → p.links.get i = {}

namespace Arranged

section Reading

variable (h : p.Arranged) {b : BlockRef} {i : InstrId}

include h

theorem head (b : BlockRef) : (p.block b).head = (p.block b).instrs.head? :=
  congrArg Block.head (h.ends b)

theorem tail (b : BlockRef) : (p.block b).tail = (p.block b).instrs.getLast? :=
  congrArg Block.tail (h.ends b)

theorem size (b : BlockRef) : (p.block b).size = (p.block b).instrs.length :=
  congrArg Block.size (h.ends b)

theorem terminator?_eq (b : BlockRef) : p.terminator? b =
    (p.block b).instrs.getLast?.filter fun i => (p.instr i).op.isTerminator := by
  rw [terminator?, h.tail]

theorem not_mem (hi : (p.instr i).place = .detached) : i ∉ (p.block b).instrs := by
  intro hmem
  rw [(h.listed b i).mp hmem] at hi
  cases hi

/-- An instruction is in one block only. -/
theorem eq_of_mem {c : BlockRef} (hb : i ∈ (p.block b).instrs) (hc : i ∈ (p.block c).instrs) : b = c :=
  Place.inBlock.inj (((h.listed b i).mp hb).symm.trans ((h.listed c i).mp hc))

variable {before after : List InstrId} (hl : (p.block b).instrs = before ++ i :: after)

include hl

theorem not_mem_before : i ∉ before := by
  have hnodup := h.nodup b
  rw [hl, List.nodup_append] at hnodup
  exact fun hi => hnodup.2.2 i hi i List.mem_cons_self rfl

theorem links_eq : p.links.get i = ⟨before.getLast?, after.head?⟩ := by
  have hthreaded := h.threaded b
  rw [hl] at hthreaded
  rw [hthreaded.get, Option.or_none, Option.or_none]

theorem next?_eq : p.next? i = after.head? := congrArg Links.next (h.links_eq hl)

theorem prev?_eq : p.prev? i = before.getLast? := congrArg Links.prev (h.links_eq hl)

omit hl

/-- Nothing follows the last instruction only. -/
theorem next?_eq_none_iff (hi : i ∈ (p.block b).instrs) :
    p.next? i = none ↔ (p.block b).instrs.getLast? = some i := by
  obtain ⟨before, after, hl⟩ := List.append_of_mem hi
  have hnodup := h.nodup b
  rw [hl, List.nodup_append, List.nodup_cons] at hnodup
  rw [h.next?_eq hl, hl, List.getLast?_append]
  cases after with
  | nil => simp
  | cons j after =>
    refine iff_of_false (fun heq => by cases heq) fun hlast => hnodup.2.1.1 ?_
    rw [List.getLast?_cons_cons, List.getLast?_cons, Option.some_or] at hlast
    refine List.mem_of_getLast? (l := j :: after) ?_
    rw [List.getLast?_cons]
    exact hlast

theorem length_le (b : BlockRef) : (p.block b).instrs.length ≤ p.instrs.size := by
  have hsub : (p.block b).instrs ⊆ List.range p.instrs.size := fun i hi =>
    List.mem_range.mpr (lt_size_of_inBlock ((h.listed b i).mp hi))
  have hle := (List.subperm_of_subset (h.nodup b) hsub).length_le
  rwa [List.length_range] at hle

/-- **The links of a block lead through its list.** -/
theorem chain_eq (b : BlockRef) : p.chain b = (p.block b).instrs := by
  rw [chain, h.head]
  exact (h.threaded b).trail_next (h.length_le b)

end Reading

/-- A change that touches neither links nor lists. -/
theorem of_lists (h : p.Arranged)
    (hlisted : ∀ b i, (q.instr i).place = .inBlock b ↔ (p.instr i).place = .inBlock b)
    (hloose : ∀ i, (q.instr i).place = .detached → (p.instr i).place = .detached)
    (hlinks : q.links = p.links)
    (hblock : ∀ b, ∃ id name, q.block b = { p.block b with id := id, name := name })
    (hnumber : ∀ b, q.HasBlock b → (q.block b).id = b.index) : q.Arranged := by
  have hinstrs : ∀ b, (q.block b).instrs = (p.block b).instrs := by
    intro b
    obtain ⟨_, _, heq⟩ := hblock b
    rw [heq]
  refine ⟨fun b i => ?_, fun b => ?_, fun b => ?_, fun b => ?_, hnumber, fun i hi => ?_⟩
  · rw [hinstrs, hlisted]
    exact h.listed b i
  · rw [hinstrs]
    exact h.nodup b
  · rw [hinstrs, hlinks]
    exact h.threaded b
  · obtain ⟨_, _, heq⟩ := hblock b
    have hends := h.ends b
    rw [heq, Block.mk.injEq]
    rw [Block.mk.injEq] at hends
    exact ⟨rfl, rfl, hends.2.2⟩
  · rw [hlinks]
    exact h.loose i (hloose i hi)

/-- A change that touches neither places, links nor lists. -/
theorem congr (h : p.Arranged) (hplace : ∀ i, (q.instr i).place = (p.instr i).place)
    (hlinks : q.links = p.links)
    (hblock : ∀ b, ∃ id name, q.block b = { p.block b with id := id, name := name })
    (hnumber : ∀ b, q.HasBlock b → (q.block b).id = b.index) : q.Arranged :=
  h.of_lists (fun b i => by rw [hplace]) (fun i hi => by rw [← hplace, hi]) hlinks hblock hnumber

/-- A change of operands only. -/
theorem of_same (h : p.Arranged) (hsame : SameButOperands p q) : q.Arranged := by
  refine h.congr hsame.place hsame.links (fun b => ⟨_, _, block_congr hsame.funcs b⟩) fun b hb => ?_
  rw [block_congr hsame.funcs]
  rw [HasBlock, func_congr hsame.funcs] at hb
  exact h.number b hb

/-- One block gets another list. -/
theorem relist (h : p.Arranged) {b : BlockRef} {l : List InstrId}
    (hblock : ∀ c, q.block c = if b = c then (p.block b).listing l else p.block c)
    (hhas : ∀ c, q.HasBlock c ↔ p.HasBlock c)
    (hlisted : ∀ c j, j ∈ (q.block c).instrs ↔ (q.instr j).place = .inBlock c)
    (hnodup : l.Nodup) (hthreaded : Threaded q.links none l none)
    (hother : ∀ j, j ∉ l → j ∉ (p.block b).instrs → q.links.get j = p.links.get j)
    (hloose : ∀ j, (q.instr j).place = .detached → (p.instr j).place = .detached) : q.Arranged := by
  have hself : (q.block b).instrs = l := by
    rw [hblock, if_pos rfl]
    rfl
  have hkept : ∀ c, b ≠ c → q.block c = p.block c := fun c hc => by rw [hblock, if_neg hc]
  refine ⟨hlisted, fun c => ?_, fun c => ?_, fun c => ?_, fun c hc => ?_, fun j hj => ?_⟩
  · by_cases hc : b = c
    · rw [← hc, hself]
      exact hnodup
    · rw [hkept c hc]
      exact h.nodup c
  · by_cases hc : b = c
    · rw [← hc, hself]
      exact hthreaded
    · -- Only links within the one block are written.
      rw [hkept c hc]
      refine (h.threaded c).congr fun j hj => hother j (fun hl => hc ?_) fun hl => hc (h.eq_of_mem hl hj)
      rw [← hself, hlisted] at hl
      rw [← hkept c hc, hlisted] at hj
      exact Place.inBlock.inj (hl.symm.trans hj)
  · by_cases hc : b = c
    · rw [← hc, hself, hblock, if_pos rfl]
      rfl
    · rw [hkept c hc]
      exact h.ends c
  · rw [hhas] at hc
    rw [hblock]
    split
    · next hbc =>
      rw [← hbc] at hc ⊢
      exact h.number b hc
    · exact h.number c hc
  · rw [hother j _ (h.not_mem (hloose j hj))]
    · exact h.loose j (hloose j hj)
    · rw [← hself, hlisted, hj]
      exact fun heq => by cases heq

end Arranged

/-! ### New parts -/

theorem func_addFunc (p : Program) (name : String) (ret : Ty) (f : FuncId) :
    (p.addFunc name ret).2.func f =
      if f = p.funcs.size then { name := name, ret := ret } else p.func f := by
  unfold func addFunc
  simp only [Array.getD_eq_getD_getElem?, Array.getElem?_push]
  split <;> rfl

theorem func_size (p : Program) : p.func p.funcs.size = default := by
  rw [func, Array.getD_eq_getD_getElem?, Array.getElem?_eq_none (Nat.le_refl _)]
  rfl

/-- A new function has no blocks. -/
theorem block_addFunc (p : Program) (name : String) (ret : Ty) (b : BlockRef) :
    (p.addFunc name ret).2.block b = p.block b := by
  rw [block, block, func_addFunc]
  split
  · next hb =>
    rw [hb, func_size]
    rfl
  · rfl

theorem func_addParam (p : Program) (f : FuncId) (name : String) (ty : Ty) (f' : FuncId) :
    (p.addParam f name ty).2.func f' = if f = f' ∧ f < p.funcs.size then
      { p.func f' with params := (p.func f').params ++ [p.params.size] } else p.func f' :=
  func_modifyFunc { p with params := p.params.push ⟨name, ty⟩ } f f' _

theorem block_addParam (p : Program) (f : FuncId) (name : String) (ty : Ty) (b : BlockRef) :
    (p.addParam f name ty).2.block b = p.block b := by
  rw [block, block, func_addParam]
  split <;> rfl

theorem func_addBlock (p : Program) (f : FuncId) (name : String) (f' : FuncId) :
    (p.addBlock f name).2.func f' = if f = f' ∧ f < p.funcs.size then { p.func f' with
      blocks := (p.func f').blocks.push { id := (p.func f').blocks.size, name := name } } else p.func f' :=
  func_modifyFunc p f f' _

/-- A new block is numbered by its position, and has no instructions. -/
theorem block_addBlock (p : Program) (f : FuncId) (name : String) (b : BlockRef) :
    (p.addBlock f name).2.block b = p.block b ∧ ((p.addBlock f name).2.HasBlock b → p.HasBlock b) ∨
      (p.addBlock f name).2.block b = { id := b.index, name := name } ∧ ¬ p.HasBlock b := by
  rw [block, block, HasBlock, func_addBlock, HasBlock]
  split
  · simp only [Array.getD_eq_getD_getElem?, Array.getElem?_push, Array.size_push]
    split
    · next hb => exact .inr ⟨by rw [hb]; rfl, by omega⟩
    · exact .inl ⟨rfl, fun _ => by omega⟩
  · exact .inl ⟨rfl, id⟩

theorem instrs_addBlock (p : Program) (f : FuncId) (name : String) (b : BlockRef) :
    ((p.addBlock f name).2.block b).instrs = (p.block b).instrs := by
  rcases p.block_addBlock f name b with ⟨heq, -⟩ | ⟨heq, hb⟩
  · rw [heq]
  · rw [heq, block_of_not_hasBlock hb]
    rfl

namespace Arranged

/-- A program without functions and instructions. -/
theorem of_empty (hfuncs : p.funcs = #[]) (hinstrs : p.instrs = {}) (hlinks : p.links = {}) :
    p.Arranged := by
  have hblock : ∀ b, p.block b = default := by
    intro b
    rw [block, func, hfuncs]
    rfl
  have hinstr : ∀ i, p.instr i = default := by
    intro i
    rw [instr, hinstrs]
    exact Table.get_empty i
  refine ⟨fun b i => ?_, fun b => ?_, fun b => ?_, fun b => ?_, fun b hb => ?_, fun i _ => ?_⟩
  · rw [hblock, hinstr]
    exact iff_of_false List.not_mem_nil fun hi => by cases hi
  · rw [hblock]
    exact List.nodup_nil
  · rw [hblock]
    trivial
  · rw [hblock]
    rfl
  · rw [HasBlock, func, hfuncs] at hb
    exact absurd hb (Nat.not_lt_zero _)
  · rw [hlinks]
    exact Table.get_empty i

variable (h : p.Arranged)

include h

/-- A change that touches neither places, links nor blocks. -/
theorem of_blocks (hplace : ∀ i, (q.instr i).place = (p.instr i).place) (hlinks : q.links = p.links)
    (hblock : ∀ b, q.block b = p.block b) (hhas : ∀ b, q.HasBlock b → p.HasBlock b) : q.Arranged :=
  h.congr hplace hlinks (fun b => ⟨_, _, hblock b⟩) fun b hb => by
    rw [hblock]
    exact h.number b (hhas b hb)

theorem addInstr {x : Instr} (hx : x.place = .detached) : (p.addInstr x).2.Arranged := by
  refine h.of_blocks (fun i => ?_) rfl (fun _ => rfl) fun _ => id
  rw [instr_addInstr]
  split
  · next hi =>
    rw [hi, instr_of_size_le (Nat.le_refl _), hx]
    rfl
  · rfl

theorem addFunc (name : String) (ret : Ty) : (p.addFunc name ret).2.Arranged := by
  refine h.of_blocks (fun _ => rfl) rfl (p.block_addFunc name ret) fun b hb => ?_
  rw [HasBlock, func_addFunc] at hb
  split at hb
  · exact absurd hb (Nat.not_lt_zero _)
  · exact hb

theorem addParam (f : FuncId) (name : String) (ty : Ty) : (p.addParam f name ty).2.Arranged := by
  refine h.of_blocks (fun _ => rfl) rfl (p.block_addParam f name ty) fun b hb => ?_
  rw [HasBlock, func_addParam] at hb
  split at hb <;> exact hb

theorem addBlock (f : FuncId) (name : String) : (p.addBlock f name).2.Arranged := by
  refine h.congr (fun _ => rfl) rfl (fun b => ?_) fun b hb => ?_
  · rcases p.block_addBlock f name b with ⟨heq, -⟩ | ⟨heq, hb⟩
    · exact ⟨_, _, heq⟩
    · rw [block_of_not_hasBlock hb]
      exact ⟨_, _, heq⟩
  · rcases p.block_addBlock f name b with ⟨heq, hold⟩ | ⟨heq, -⟩
    · rw [heq]
      exact h.number b (hold hb)
    · rw [heq]

end Arranged

/-! ### Putting an instruction into a block -/

section Attach

variable {b : BlockRef} (hb : p.HasBlock b) (i : InstrId) (place : List InstrId → List InstrId)

/-- What is done before the block lists the instruction: it has its place and its number. -/
def enroll (p : Program) (b : BlockRef) (i : InstrId) : Program :=
  (p.modifyInstr i fun x => { x with id := (p.func b.func).lastId + 1, place := .inBlock b }).modifyFunc
    b.func fun f => { f with lastId := (p.func b.func).lastId + 1 }

theorem func_enroll (p : Program) (b : BlockRef) (i : InstrId) (f : FuncId) : (p.enroll b i).func f =
    if b.func = f ∧ b.func < p.funcs.size then
      { p.func f with lastId := (p.func b.func).lastId + 1 } else p.func f :=
  func_modifyFunc _ b.func f _

theorem blocks_enroll (p : Program) (b : BlockRef) (i : InstrId) (f : FuncId) :
    ((p.enroll b i).func f).blocks = (p.func f).blocks := by
  rw [func_enroll]
  split <;> rfl

include hb

/-- The function counts up, and has as many blocks as before. -/
theorem func_attach (f : FuncId) : ∃ blocks, blocks.size = (p.func f).blocks.size ∧
    (p.attach b i place).func f = { p.func f with
      blocks := blocks, lastId := if b.func = f then (p.func f).lastId + 1 else (p.func f).lastId } := by
  obtain ⟨blocks, hsize, heq⟩ := (p.enroll b i).func_modifyBlock b
    (fun blk => { blk with instrs := place blk.instrs }) f
  refine ⟨blocks, hsize.trans (congrArg Array.size (p.blocks_enroll b i f)), heq.trans ?_⟩
  rw [func_enroll]
  by_cases hf : b.func = f
  · subst hf
    rw [if_pos ⟨rfl, hb.func_lt⟩, if_pos rfl]
  · rw [if_neg fun h => hf h.1, if_neg hf]

theorem block_attach (c : BlockRef) : (p.attach b i place).block c =
    if b = c then { p.block b with instrs := place (p.block b).instrs } else p.block c := by
  have hsame : ∀ c, (p.enroll b i).block c = p.block c := fun c => by rw [block, block, blocks_enroll]
  have hb' : (p.enroll b i).HasBlock b := by
    rw [HasBlock, blocks_enroll]
    exact hb
  show ((p.enroll b i).modifyBlock b fun blk => { blk with instrs := place blk.instrs }).block c = _
  rw [block_modifyBlock hb', hsame, hsame]

end Attach

/-- `q` is `p` with an instruction put into a block. -/
structure Attaches (p : Program) (b : BlockRef) (i : InstrId) (q : Program) : Prop where
  /-- The instruction gets its place, and the next number of the function. -/
  instr : ∀ j, q.instr j = if i = j then
    { p.instr i with id := (p.func b.func).lastId + 1, place := .inBlock b } else p.instr j
  /-- Use-lists stay. -/
  usesOf : ∀ v, q.usesOf v = p.usesOf v
  /-- The function counts up. -/
  func : ∀ f, ∃ blocks, blocks.size = (p.func f).blocks.size ∧ q.func f = { p.func f with
    blocks := blocks, lastId := if b.func = f then (p.func f).lastId + 1 else (p.func f).lastId }

theorem Relinked.attaches {b : BlockRef} (hb : p.HasBlock b) {i : InstrId}
    {place : List InstrId → List InstrId} (h : Relinked (p.attach b i place) q) : p.Attaches b i q where
  instr j := (h.instr j).trans (p.instr_attach b i place j)
  usesOf := h.usesOf
  func f := by
    obtain ⟨blocks, hsize, heq⟩ := func_attach hb i place f
    obtain ⟨blocks', hsize', heq'⟩ := h.func f
    rw [heq] at hsize' heq'
    exact ⟨blocks', hsize'.trans hsize, heq'⟩

theorem attaches_appendTo {b : BlockRef} (hb : p.HasBlock b) (i : InstrId) :
    p.Attaches b i (p.appendTo b i) :=
  (relinked_linkLast _ b i).attaches hb

theorem attaches_insertInto {b : BlockRef} (hb : p.HasBlock b) (i pos : InstrId) :
    p.Attaches b i (p.insertInto b i pos) :=
  (relinked_linkBefore _ b i pos).attaches hb

namespace Attaches

variable {b : BlockRef} {i : InstrId} (h : p.Attaches b i q)

include h

theorem hasBlock {c : BlockRef} : q.HasBlock c ↔ p.HasBlock c := by
  obtain ⟨blocks, hsize, heq⟩ := h.func c.func
  rw [HasBlock, HasBlock, heq, hsize]

theorem place (j : InstrId) : (q.instr j).place = if i = j then .inBlock b else (p.instr j).place := by
  rw [h.instr]
  split <;> rfl

/-- One block lists one more instruction. -/
theorem arranged (hp : p.Arranged) (hi : (p.instr i).place = .detached) {l : List InstrId}
    (hblock : ∀ c, q.block c = if b = c then (p.block b).listing l else p.block c)
    (hmem : ∀ j, j ∈ l ↔ j = i ∨ j ∈ (p.block b).instrs) (hnodup : l.Nodup)
    (hthreaded : Threaded q.links none l none)
    (hother : ∀ j, j ∉ l → q.links.get j = p.links.get j) : q.Arranged := by
  refine hp.relist hblock (fun _ => h.hasBlock) (fun c j => ?_) hnodup hthreaded
    (fun j hj _ => hother j hj) fun j hj => ?_
  · rw [hblock, h.place]
    by_cases hij : i = j
    · subst hij
      rw [if_pos rfl]
      by_cases hc : b = c
      · rw [if_pos hc, hc]
        exact iff_of_true ((hmem i).mpr (.inl rfl)) rfl
      · rw [if_neg hc]
        exact iff_of_false (hp.not_mem hi) fun heq => hc (Place.inBlock.inj heq)
    · rw [if_neg hij, ← hp.listed c j]
      by_cases hc : b = c
      · rw [if_pos hc, ← hc]
        exact (hmem j).trans (or_iff_right (Ne.symm hij))
      · rw [if_neg hc]
  · rw [h.place] at hj
    split at hj
    · cases hj
    · exact hj

end Attaches

theorem insertBeforeIn_eq {i pos : InstrId} {before after : List InstrId} (hpos : pos ∉ before) :
    insertBeforeIn i pos (before ++ pos :: after) = before ++ i :: pos :: after := by
  induction before with
  | nil => rw [List.nil_append, insertBeforeIn, if_pos rfl, List.nil_append]
  | cons k before ih =>
    rw [List.mem_cons, not_or] at hpos
    rw [List.cons_append, insertBeforeIn, if_neg (Ne.symm hpos.1), ih hpos.2, List.cons_append]

namespace Arranged

variable (h : p.Arranged) {b : BlockRef} {i : InstrId}

include h

theorem block_appendTo (hb : p.HasBlock b) (i : InstrId) (c : BlockRef) : (p.appendTo b i).block c =
    if b = c then (p.block b).listing ((p.block b).instrs ++ [i]) else p.block c := by
  have hattach := block_attach hb i (· ++ [i])
  have hb' : (p.attach b i (· ++ [i])).HasBlock b := ((Relinked.refl _).attaches hb).hasBlock.mpr hb
  have hhead : (if (p.block b).instrs.getLast? = none then some i else (p.block b).instrs.head?) =
      ((p.block b).instrs ++ [i]).head? := by
    cases (p.block b).instrs <;> simp [List.getLast?_cons]
  rw [appendTo, block_linkLast hb', hattach b, hattach c, if_pos rfl, h.tail, h.head, h.size, hhead,
    Block.listing, List.getLast?_concat, List.length_append, List.length_singleton]
  split <;> rfl

/-- A loose instruction may be put at the end of a block. -/
theorem appendTo (hb : p.HasBlock b) (hi : (p.instr i).place = .detached) :
    (p.appendTo b i).Arranged := by
  have hloose : i ∉ (p.block b).instrs := h.not_mem hi
  have hlinks : (p.appendTo b i).links =
      relink (p.links.modify i fun l => { l with prev := (p.block b).instrs.getLast? })
        (fun l => { l with next := some i }) (p.block b).instrs.getLast? := by
    rw [Program.appendTo, links_linkLast, block_attach hb, if_pos rfl, ← h.tail]
    rfl
  refine (attaches_appendTo hb i).arranged h hi (h.block_appendTo hb i) (fun j => ?_) ?_ ?_ fun j hj => ?_
  · rw [List.mem_append, List.mem_singleton, or_comm]
  · refine List.nodup_append.mpr ⟨h.nodup b, List.nodup_singleton i, ?_⟩
    rintro j hj k hk rfl
    rw [List.mem_singleton.mp hk] at hj
    exact hloose hj
  · rw [hlinks]
    exact (h.threaded b).concat (h.nodup b) hloose (h.loose i hi)
  · rw [List.mem_append, List.mem_singleton, not_or] at hj
    rw [hlinks, get_relink_of_ne fun heq => hj.1 (List.mem_of_getLast? heq), Table.get_modify,
      if_neg (Ne.symm hj.2)]

section Insert

variable {pos : InstrId} {before after : List InstrId} (hl : (p.block b).instrs = before ++ pos :: after)

include hl

omit h in
theorem hasBlock_of_split : p.HasBlock b :=
  hasBlock_of_mem (i := pos) (by rw [hl]; exact List.mem_append_cons_self)

theorem block_insertInto (i : InstrId) (c : BlockRef) : (p.insertInto b i pos).block c =
    if b = c then (p.block b).listing (before ++ i :: pos :: after) else p.block c := by
  have hb := hasBlock_of_split hl
  have hattach := block_attach hb i (insertBeforeIn i pos)
  have hb' : (p.attach b i (insertBeforeIn i pos)).HasBlock b :=
    ((Relinked.refl _).attaches hb).hasBlock.mpr hb
  have hprev : (p.attach b i (insertBeforeIn i pos)).prev? pos = before.getLast? := h.prev?_eq hl
  have hhead : (if before.getLast? = none then some i else (before ++ pos :: after).head?) =
      (before ++ i :: pos :: after).head? := by
    cases before <;> simp [List.getLast?_cons]
  have htail : (before ++ pos :: after).getLast? = (before ++ i :: pos :: after).getLast? := by
    simp [List.getLast?_append, List.getLast?_cons]
  have hlength : (before ++ pos :: after).length + 1 = (before ++ i :: pos :: after).length := by
    simp only [List.length_append, List.length_cons]
    omega
  rw [insertInto, block_linkBefore hb', hattach b, hattach c, if_pos rfl, hprev, h.ends b,
    Block.listing, Block.listing, hl, insertBeforeIn_eq (h.not_mem_before hl), hhead, htail, hlength]
  split <;> rfl

/-- A loose instruction may be put before one that is in the block. -/
theorem insertInto (hi : (p.instr i).place = .detached) : (p.insertInto b i pos).Arranged := by
  have hb := hasBlock_of_split hl
  have hloose : i ∉ before ++ pos :: after := hl ▸ h.not_mem hi
  have hnodup : (before ++ pos :: after).Nodup := hl ▸ h.nodup b
  have hlinks : (p.insertInto b i pos).links =
      (relink (p.links.modify i fun _ => ⟨before.getLast?, some pos⟩)
        (fun l => { l with next := some i }) before.getLast?).modify pos
        fun l => { l with prev := some i } := by
    rw [Program.insertInto, links_linkBefore, ← h.prev?_eq hl]
    rfl
  refine (attaches_insertInto hb i pos).arranged h hi (h.block_insertInto hl i) (fun j => ?_) ?_ ?_
    fun j hj => ?_
  · rw [hl]
    simp only [List.mem_append, List.mem_cons]
    exact or_left_comm
  · exact List.nodup_middle.mpr (List.nodup_cons.mpr ⟨hloose, hnodup⟩)
  · rw [hlinks]
    exact (hl ▸ h.threaded b).insert hnodup hloose
  · simp only [List.mem_append, List.mem_cons, not_or] at hj
    rw [hlinks, Table.get_modify, if_neg (Ne.symm hj.2.2.1),
      get_relink_of_ne fun heq => hj.1 (List.mem_of_getLast? heq), Table.get_modify,
      if_neg (Ne.symm hj.2.1)]

end Insert

end Arranged

/-! ### Erasing -/

/-- What is done before the block loses the instruction: its operands and its place are gone. -/
def retire (p : Program) (i : InstrId) : Program :=
  (p.dropOperands i).modifyInstr i fun x => { x with place := .erased }

theorem funcs_retire (p : Program) (i : InstrId) : (p.retire i).funcs = p.funcs :=
  funcs_dropOperands p i

/-- Erasing leaves the number of blocks alone, and all that is not a block. -/
theorem func_detach (p : Program) (i : InstrId) (f : FuncId) :
    ∃ blocks, blocks.size = (p.func f).blocks.size ∧
      (p.detach i).func f = { p.func f with blocks := blocks } := by
  have hsame : (p.retire i).func f = p.func f := func_congr (p.funcs_retire i) f
  dsimp only [detach]
  split
  · next b _ =>
    obtain ⟨blocks, hsize, heq⟩ := (p.retire i).func_modifyBlock b
      (fun blk => { blk with instrs := blk.instrs.erase i }) f
    obtain ⟨blocks', hsize', heq'⟩ := (relinked_unlink _ b i).func f
    rw [heq] at hsize' heq'
    rw [hsame] at hsize heq'
    exact ⟨blocks', hsize'.trans hsize, heq'⟩
  · exact ⟨_, rfl, hsame⟩

theorem size_funcs_detach (p : Program) (i : InstrId) : (p.detach i).funcs.size = p.funcs.size := by
  have hdropped := congrArg Array.size (funcs_dropOperands p i)
  dsimp only [detach]
  split
  · next b _ => exact (relinked_unlink _ b i).size.trans (Array.size_modify.trans hdropped)
  · exact hdropped

theorem hasBlock_detach {i : InstrId} {b : BlockRef} : (p.detach i).HasBlock b ↔ p.HasBlock b := by
  obtain ⟨blocks, hsize, heq⟩ := p.func_detach i b.func
  rw [HasBlock, HasBlock, heq, hsize]

theorem place_detach (p : Program) (i j : InstrId) :
    ((p.detach i).instr j).place = if i = j then .erased else (p.instr j).place := by
  rw [instr_detach]
  split <;> rfl

namespace Arranged

variable (h : p.Arranged)

include h

/-- What is unlinked when an instruction of a block is erased. -/
theorem detach_eq {b : BlockRef} {i : InstrId} (hi : (p.instr i).place = .inBlock b) :
    ∃ q : Program, p.detach i = q.unlink b i ∧ q.links = p.links ∧ q.HasBlock b ∧
      ∀ c, q.block c = if b = c then { p.block b with instrs := (p.block b).instrs.erase i }
        else p.block c := by
  have hfuncs := p.funcs_retire i
  have hb : (p.retire i).HasBlock b := by
    rw [HasBlock, func_congr hfuncs]
    exact hasBlock_of_mem ((h.listed b i).mpr hi)
  refine ⟨(p.retire i).modifyBlock b fun blk => { blk with instrs := blk.instrs.erase i },
    ?_, ?_, ?_, fun c => ?_⟩
  · rw [detach, hi]
    rfl
  · obtain ⟨is, us, heq⟩ := p.exists_dropOperands i
    show (p.dropOperands i).links = p.links
    rw [heq]
  · obtain ⟨blocks, hsize, heq⟩ := (p.retire i).func_modifyBlock b
      (fun blk => { blk with instrs := blk.instrs.erase i }) b.func
    rw [HasBlock, heq]
    exact hsize ▸ hb
  · rw [block_modifyBlock hb, block_congr hfuncs, block_congr hfuncs]

/-- **Erasing takes an instruction out of the list of its block.** -/
theorem block_detach (i : InstrId) (c : BlockRef) : (p.detach i).block c =
    if (p.instr i).place = .inBlock c then (p.block c).listing ((p.block c).instrs.erase i)
      else p.block c := by
  have hstays : (p.instr i).place.block? = none → (p.detach i).block c = p.block c := by
    intro hnone
    rw [detach, hnone]
    exact block_congr (funcs_dropOperands p i) c
  cases hplace : (p.instr i).place with
  | detached => exact hstays (by rw [hplace]; rfl)
  | erased => exact hstays (by rw [hplace]; rfl)
  | inBlock b =>
    obtain ⟨q, hq, hlinks, hb, hblock⟩ := h.detach_eq hplace
    obtain ⟨before, after, hl⟩ := List.append_of_mem ((h.listed b i).mpr hplace)
    have hnext : q.next? i = after.head? := by
      rw [← h.next?_eq hl, next?, hlinks, next?]
    have hprev : q.prev? i = before.getLast? := by
      rw [← h.prev?_eq hl, prev?, hlinks, prev?]
    have herase : (before ++ i :: after).erase i = before ++ after := by
      rw [List.erase_append_right _ (h.not_mem_before hl), List.erase_cons_head]
    have hhead : (if before.getLast? = none then after.head? else (before ++ i :: after).head?) =
        (before ++ after).head? := by
      cases before <;> simp [List.getLast?_cons]
    have htail : (if after.head? = none then before.getLast? else (before ++ i :: after).getLast?) =
        (before ++ after).getLast? := by
      cases after <;> simp [List.getLast?_append, List.getLast?_cons]
    have hlength : (before ++ i :: after).length - 1 = (before ++ after).length := by
      simp only [List.length_append, List.length_cons]
      omega
    rw [hq, block_unlink hb, hblock b, hblock c, if_pos rfl, hnext, hprev]
    by_cases hc : b = c
    · subst hc
      rw [if_pos rfl, if_pos rfl, Block.listing, hl, herase, ← hhead, ← htail, ← hlength, ← hl, ← h.head,
        ← h.tail, ← h.size]
    · rw [if_neg hc, if_neg hc, if_neg fun heq => hc (Place.inBlock.inj heq)]

/-- Other functions are left alone. -/
theorem func_detach_of_ne {i : InstrId} {f : FuncId}
    (hf : ∀ b, (p.instr i).place = .inBlock b → b.func ≠ f) : (p.detach i).func f = p.func f := by
  obtain ⟨blocks, hsize, heq⟩ := p.func_detach i f
  have hblocks : blocks = (p.func f).blocks := by
    refine Array.ext hsize fun k hk hk' => ?_
    have hblock := h.block_detach i ⟨f, k⟩
    rw [if_neg fun hplace => hf _ hplace rfl, block, block, heq] at hblock
    simpa [hk, hk'] using hblock
  rw [heq, hblocks]

/-- The block of an erased instruction lists all but that. -/
theorem instrs_detach (i : InstrId) (b : BlockRef) :
    ((p.detach i).block b).instrs = (p.block b).instrs.filter (· ≠ i) := by
  rw [h.block_detach]
  split
  · refine ((h.nodup b).erase_eq_filter i).trans (List.filter_congr fun j _ => ?_)
    by_cases hj : j = i
    · simp [hj]
    · simp [hj]
  · next hother =>
    rw [List.filter_eq_self.mpr]
    intro j hj
    refine decide_eq_true fun heq => hother ((h.listed b i).mp ?_)
    rw [← heq]
    exact hj

/-- Blocks still list just the instructions that are placed in them. -/
theorem mem_instrs_detach (i : InstrId) (b : BlockRef) (j : InstrId) :
    j ∈ ((p.detach i).block b).instrs ↔ ((p.detach i).instr j).place = .inBlock b := by
  rw [h.instrs_detach, List.mem_filter, decide_eq_true_eq, place_detach]
  by_cases hij : i = j
  · rw [if_pos hij]
    exact iff_of_false (fun hj => hj.2 hij.symm) fun heq => by cases heq
  · rw [if_neg hij, ← h.listed b j]
    exact and_iff_left (Ne.symm hij)

/-- Only the neighbours of an erased instruction get other links. -/
theorem links_detach {b : BlockRef} {i : InstrId} (hi : (p.instr i).place = .inBlock b) :
    (p.detach i).links = relink (relink p.links (fun l => { l with next := p.next? i }) (p.prev? i))
      (fun l => { l with prev := p.prev? i }) (p.next? i) := by
  obtain ⟨q, hq, hlinks, -, -⟩ := h.detach_eq hi
  rw [hq, links_unlink, hlinks, next?, prev?, hlinks, next?, prev?]

omit h in
/-- An instruction outside all blocks leaves no gap. -/
theorem links_detach_of_none {i : InstrId} (hi : (p.instr i).place.block? = none) :
    (p.detach i).links = p.links := by
  obtain ⟨is, us, heq⟩ := p.exists_dropOperands i
  rw [Program.detach, hi, heq]
  rfl

/-- The links of instructions outside its block are left alone. -/
theorem get_links_detach {i j : InstrId}
    (hj : ∀ b, (p.instr i).place = .inBlock b → (p.instr j).place ≠ .inBlock b) :
    (p.detach i).links.get j = p.links.get j := by
  cases hplace : (p.instr i).place with
  | inBlock b =>
    obtain ⟨before, after, hl⟩ := List.append_of_mem ((h.listed b i).mpr hplace)
    have hmem : j ∉ before ++ i :: after := fun hmem => hj b hplace ((h.listed b j).mp (hl ▸ hmem))
    simp only [List.mem_append, List.mem_cons, not_or] at hmem
    rw [h.links_detach hplace, h.next?_eq hl, h.prev?_eq hl,
      get_relink_of_ne fun heq => hmem.2.2 (List.mem_of_head? heq),
      get_relink_of_ne fun heq => hmem.1 (List.mem_of_getLast? heq)]
  | _ => rw [links_detach_of_none (by rw [hplace]; rfl)]

/-- Erasing joins the way to an instruction with the way from it. -/
theorem next?_detach (i j : InstrId) : (p.detach i).next? j = p.next? j ∨
    p.next? j = some i ∧ (p.detach i).next? j = p.next? i := by
  cases hplace : (p.instr i).place with
  | inBlock b =>
    rw [next?, h.links_detach hplace, next_relink_prev]
    by_cases hprev : p.prev? i = some j
    · right
      obtain ⟨before, after, hl⟩ := List.append_of_mem ((h.listed b i).mpr hplace)
      rw [h.prev?_eq hl] at hprev
      obtain ⟨front, rfl⟩ := List.getLast?_eq_some_iff.mp hprev
      rw [List.append_assoc, List.singleton_append] at hl
      refine ⟨h.next?_eq hl, ?_⟩
      have hl' : (p.block b).instrs = (front ++ [j]) ++ i :: after := by
        rw [hl, List.append_assoc, List.singleton_append]
      rw [h.prev?_eq hl', List.getLast?_concat, relink, Table.get_modify, if_pos rfl]
    · left
      rw [get_relink_of_ne hprev]
      rfl
  | _ =>
    left
    rw [next?, links_detach_of_none (by rw [hplace]; rfl)]
    rfl

/-- Any instruction may be erased. -/
theorem detach (i : InstrId) : (p.detach i).Arranged := by
  have hloose : ∀ j, ((p.detach i).instr j).place = .detached → (p.instr j).place = .detached := by
    intro j hj
    rw [place_detach] at hj
    split at hj
    · cases hj
    · exact hj
  cases hplace : (p.instr i).place with
  | detached | erased =>
    have hout : ∀ c, (p.instr i).place ≠ .inBlock c := fun c hc => by simp [hplace] at hc
    have hsame : ∀ c, (p.detach i).block c = p.block c := fun c => by
      rw [h.block_detach, if_neg (hout c)]
    refine h.of_lists (fun c j => ?_) hloose (links_detach_of_none (by rw [hplace]; rfl))
      (fun c => ⟨_, _, hsame c⟩) fun c hc => ?_
    · rw [place_detach]
      split
      · next hij => exact iff_of_false (fun heq => by cases heq) (hij ▸ hout c)
      · rfl
    · rw [hsame]
      exact h.number c (hasBlock_detach.mp hc)
  | inBlock b =>
    -- The neighbours are joined, and the list loses the instruction.
    obtain ⟨before, after, hl⟩ := List.append_of_mem ((h.listed b i).mpr hplace)
    have hlinks := h.links_detach hplace
    rw [h.next?_eq hl, h.prev?_eq hl] at hlinks
    have hnodup : (before ++ i :: after).Nodup := hl ▸ h.nodup b
    refine h.relist (b := b) (l := before ++ after) (fun c => ?_) (fun _ => hasBlock_detach)
      (h.mem_instrs_detach i) ?_ ?_ (fun j hj _ => ?_) hloose
    · simp only [h.block_detach, hplace, Place.inBlock.injEq]
      split
      · next hc =>
        rw [← hc, hl, List.erase_append_right _ (h.not_mem_before hl), List.erase_cons_head]
      · rfl
    · exact (List.nodup_cons.mp (List.nodup_middle.mp hnodup)).2
    · rw [hlinks]
      exact (hl ▸ h.threaded b).remove hnodup
    · rw [List.mem_append, not_or] at hj
      rw [hlinks, get_relink_of_ne fun heq => hj.2 (List.mem_of_head? heq),
        get_relink_of_ne fun heq => hj.1 (List.mem_of_getLast? heq)]

end Arranged

end Program

end Midend
