import Mathlib.Data.List.Induction
import Mathlib.Data.List.Nodup
import Midend.Program.Edit

/-!
# Links

The operations on links write one pointer at a time: the way on from an instruction or into a block, the
way back from an instruction or from the end of a block, and the size of a block.  Here each of them gets
its meaning, for the table of links and for the blocks.  What they do to a whole list is said with
`Threaded`: a segment of a list is linked both ways, between an instruction before it and one behind it,
and a segment is cut and joined by writing the pointers at its ends.

## Main definitions

* `Threaded`: a segment of a list is linked both ways.
* `relink`: writes a pointer of an instruction, if there is one.
* `Program.Relinked`: a program differs from another one in pointers and sizes only.

## Main results

* `threaded_append`: a segment made up of two.
* `Threaded.leadOn`, `Threaded.leadBack`: the pointers at the ends.
* `Threaded.concat`, `Threaded.insert`, `Threaded.remove`: what the operations do to a whole list.
* `Threaded.trail_next`, `Threaded.trail_prev`: links lead through the list, and stop there.
* `Program.relinked_linkLast`, `Program.relinked_linkBefore`, `Program.relinked_unlink`: what stays.
-/

namespace Midend

/-! ### Segments -/

/-- A segment of a list is linked both ways; `prev` comes before it and `next` behind it. -/
def Threaded (links : Table Links) (prev : Option InstrId) : List InstrId → Option InstrId → Prop
  | [], _ => True
  | i :: rest, next => links.get i = ⟨prev, rest.head?.or next⟩ ∧ Threaded links (some i) rest next

/-- Writes a pointer of an instruction, if there is one. -/
def relink (links : Table Links) (g : Links → Links) : Option InstrId → Table Links
  | some i => links.modify i g
  | none => links

section Threaded

variable {links links' : Table Links} {prev next : Option InstrId} {l l' : List InstrId} {i : InstrId}

theorem get_relink_of_ne {at? : Option InstrId} (h : at? ≠ some i) (g : Links → Links) :
    (relink links g at?).get i = links.get i := by
  cases at? with
  | none => rfl
  | some j =>
    have hij : j ≠ i := fun hij => h (congrArg some hij)
    rw [relink, Table.get_modify, if_neg hij]

/-- A change of the way back leaves the way on alone. -/
theorem next_relink_prev (prev at? : Option InstrId) :
    ((relink links (fun l => { l with prev := prev }) at?).get i).next = (links.get i).next := by
  cases at? with
  | none => rfl
  | some j =>
    rw [relink, Table.get_modify]
    split
    · next hij => rw [hij]
    · rfl

theorem Threaded.congr (h : Threaded links prev l next) (hsame : ∀ i ∈ l, links'.get i = links.get i) :
    Threaded links' prev l next := by
  induction l generalizing prev with
  | nil => trivial
  | cons i l ih =>
    refine ⟨(hsame i List.mem_cons_self).trans h.1, ih h.2 fun j hj => ?_⟩
    exact hsame j (List.mem_cons_of_mem i hj)

theorem threaded_append : Threaded links prev (l ++ l') next ↔
    Threaded links prev l (l'.head?.or next) ∧ Threaded links (l.getLast?.or prev) l' next := by
  induction l generalizing prev with
  | nil => exact (and_iff_right trivial).symm
  | cons i l ih =>
    have hlast : (i :: l).getLast?.or prev = l.getLast?.or (some i) := by
      cases l with
      | nil => rfl
      | cons j l => simp [List.getLast?_cons]
    have hhead : (l ++ l').head?.or next = l.head?.or (l'.head?.or next) := by
      rw [List.head?_append, Option.or_assoc]
    rw [List.cons_append, Threaded, Threaded, ih, hlast, hhead, and_assoc]

/-- What the links of an instruction in the middle say. -/
theorem Threaded.get {before after : List InstrId}
    (h : Threaded links prev (before ++ i :: after) next) :
    links.get i = ⟨before.getLast?.or prev, after.head?.or next⟩ :=
  (threaded_append.mp h).2.1

/-- The way on from the last instruction is made to lead elsewhere. -/
theorem Threaded.leadOn (h : Threaded links prev l next) (hl : l.Nodup) (next' : Option InstrId) :
    Threaded (relink links (fun x => { x with next := next' }) l.getLast?) prev l next' := by
  rcases List.eq_nil_or_concat l with rfl | ⟨front, i, rfl⟩
  · trivial
  · rw [List.concat_eq_append] at h hl ⊢
    rw [threaded_append] at h
    have hi : i ∉ front := fun hi => (List.nodup_append.mp hl).2.2 i hi i List.mem_cons_self rfl
    rw [List.getLast?_concat, threaded_append]
    refine ⟨h.1.congr fun j hj => get_relink_of_ne ?_ _, ?_, trivial⟩
    · rintro ⟨⟩
      exact hi hj
    · rw [relink, Table.get_modify, if_pos rfl, h.2.1]
      rfl

/-- The way back from the first instruction is made to lead elsewhere. -/
theorem Threaded.leadBack (h : Threaded links prev l next) (hl : l.Nodup) (prev' : Option InstrId) :
    Threaded (relink links (fun x => { x with prev := prev' }) l.head?) prev' l next := by
  cases l with
  | nil => trivial
  | cons i l =>
    refine ⟨?_, h.2.congr fun j hj => get_relink_of_ne ?_ _⟩
    · rw [List.head?_cons, relink, Table.get_modify, if_pos rfl, h.1]
    · rintro ⟨⟩
      exact (List.nodup_cons.mp hl).1 hj

/-! ### Changes of a whole list -/

variable {before after : List InstrId} {pos : InstrId}

/-- One more instruction is linked behind the last one. -/
theorem Threaded.concat (h : Threaded links none l none) (hl : l.Nodup) (hi : i ∉ l)
    (hloose : links.get i = {}) :
    Threaded (relink (links.modify i fun x => { x with prev := l.getLast? })
      (fun x => { x with next := some i }) l.getLast?) none (l ++ [i]) none := by
  rw [threaded_append]
  refine ⟨(h.congr fun j hj => ?_).leadOn hl (some i), ?_, trivial⟩
  · rw [Table.get_modify, if_neg]
    rintro rfl
    exact hi hj
  · rw [get_relink_of_ne fun heq => hi (List.mem_of_getLast? heq), Table.get_modify, if_pos rfl, hloose,
      Option.or_none]
    rfl

/-- One more instruction is linked between `pos` and the one before it. -/
theorem Threaded.insert (h : Threaded links none (before ++ pos :: after) none)
    (hl : (before ++ pos :: after).Nodup) (hi : i ∉ before ++ pos :: after) :
    Threaded ((relink (links.modify i fun _ => ⟨before.getLast?, some pos⟩)
      (fun x => { x with next := some i }) before.getLast?).modify pos fun x => { x with prev := some i })
      none (before ++ i :: pos :: after) none := by
  rw [threaded_append, Option.or_none] at h
  rw [List.nodup_append] at hl
  obtain ⟨hbefore, hback, hapart⟩ := hl
  rw [List.mem_append, not_or] at hi
  have hnew : ∀ j ∈ before ++ pos :: after, (links.modify i fun _ =>
      ⟨before.getLast?, some pos⟩).get j = links.get j := by
    intro j hj
    rw [Table.get_modify, if_neg]
    rintro rfl
    exact (List.mem_append.mp hj).elim hi.1 hi.2
  rw [threaded_append, Option.or_none]
  refine ⟨?_, ?_, ?_⟩
  · refine Threaded.congr ((h.1.congr fun j hj => hnew j (List.mem_append_left _ hj)).leadOn hbefore
      (some i)) fun j hj => ?_
    rw [Table.get_modify, if_neg fun heq => hapart j hj pos List.mem_cons_self heq.symm]
  · have hpos : pos ≠ i := fun heq => hi.2 (List.mem_cons.mpr (.inl heq.symm))
    rw [Table.get_modify, if_neg hpos,
      get_relink_of_ne fun heq => hi.1 (List.mem_of_getLast? heq), Table.get_modify, if_pos rfl,
      Option.or_none, Option.or_none]
    rfl
  · refine Threaded.leadBack (l := pos :: after) (h.2.congr fun j hj => ?_) hback (some i)
    rw [get_relink_of_ne fun heq => hapart j (List.mem_of_getLast? heq) j hj rfl]
    exact hnew j (List.mem_append_right _ hj)

/-- The neighbours of an instruction are linked to each other. -/
theorem Threaded.remove (h : Threaded links none (before ++ i :: after) none)
    (hl : (before ++ i :: after).Nodup) :
    Threaded (relink (relink links (fun x => { x with next := after.head? }) before.getLast?)
      (fun x => { x with prev := before.getLast? }) after.head?) none (before ++ after) none := by
  obtain ⟨hfront, -, hback⟩ := threaded_append.mp h
  rw [List.nodup_append, List.nodup_cons] at hl
  obtain ⟨hbefore, ⟨-, hafter⟩, hapart⟩ := hl
  have hapart : ∀ j ∈ before, j ∉ after := fun j hj hj' =>
    hapart j hj j (List.mem_cons_of_mem i hj') rfl
  rw [threaded_append, Option.or_none, Option.or_none]
  refine ⟨(hfront.leadOn hbefore after.head?).congr fun j hj => ?_,
    Threaded.leadBack (hback.congr fun j hj => ?_) hafter _⟩
  · exact get_relink_of_ne (fun heq => hapart j hj (List.mem_of_head? heq)) _
  · exact get_relink_of_ne (fun heq => hapart j (List.mem_of_getLast? heq) hj) _

/-! ### Following links -/

theorem trail_none {α : Type} (step : α → Option α) (n : Nat) : trail step n none = [] := by
  cases n <;> rfl

theorem Threaded.trail_next (h : Threaded links prev l none) {n : Nat} (hn : l.length ≤ n) :
    trail (fun i => (links.get i).next) n l.head? = l := by
  induction l generalizing prev n with
  | nil => exact trail_none _ n
  | cons i l ih =>
    obtain ⟨m, rfl⟩ : ∃ m, n = m + 1 := ⟨n - 1, by rw [List.length_cons] at hn; omega⟩
    have hnext : (links.get i).next = l.head? := by rw [h.1, Option.or_none]
    show i :: trail _ m (links.get i).next = i :: l
    rw [hnext, ih h.2 (Nat.le_of_succ_le_succ hn)]

theorem Threaded.trail_prev (h : Threaded links none l next) {n : Nat} (hn : l.length ≤ n) :
    trail (fun i => (links.get i).prev) n l.getLast? = l.reverse := by
  induction l using List.reverseRecOn generalizing next n with
  | nil => exact trail_none _ n
  | append_singleton l i ih =>
    rw [List.length_append, List.length_singleton] at hn
    obtain ⟨m, rfl⟩ : ∃ m, n = m + 1 := ⟨n - 1, by omega⟩
    have hprev : (links.get i).prev = l.getLast? := by rw [h.get, Option.or_none]
    rw [List.getLast?_concat, List.reverse_concat]
    show i :: trail _ m (links.get i).prev = i :: l.reverse
    rw [hprev, ih (threaded_append.mp h).1 (Nat.le_of_succ_le_succ hn)]

end Threaded

namespace Program

variable {p q : Program}

/-! ### Functions and blocks after a change -/

theorem func_modifyFunc (p : Program) (f f' : FuncId) (g : Func → Func) :
    (p.modifyFunc f g).func f' = if f = f' ∧ f < p.funcs.size then g (p.func f') else p.func f' := by
  unfold modifyFunc func
  simp only [Array.getD_eq_getD_getElem?, Array.getElem?_modify]
  by_cases hf : f = f'
  · subst hf
    by_cases hlt : f < p.funcs.size
    · simp [hlt]
    · simp [hlt]
  · simp [hf]

theorem HasBlock.func_lt {b : BlockRef} (h : p.HasBlock b) : b.func < p.funcs.size := by
  refine Nat.lt_of_not_le fun hle => ?_
  rw [HasBlock, func, Array.getD_eq_getD_getElem?, Array.getElem?_eq_none hle] at h
  exact Nat.not_lt_zero _ h

/-- What is read of a block that is not there. -/
theorem block_of_not_hasBlock {b : BlockRef} (h : ¬ p.HasBlock b) : p.block b = default := by
  rw [block, Array.getD_eq_getD_getElem?, Array.getElem?_eq_none (Nat.le_of_not_lt h)]
  rfl

/-- A change of a block that is there. -/
theorem block_modifyBlock {b : BlockRef} (hb : p.HasBlock b) (c : BlockRef) (g : Block → Block) :
    (p.modifyBlock b g).block c = if b = c then g (p.block b) else p.block c := by
  rw [modifyBlock, block, func_modifyFunc]
  by_cases hf : b.func = c.func
  · have hb' : b.index < (p.func c.func).blocks.size := hf ▸ hb
    rw [if_pos ⟨hf, hb.func_lt⟩]
    by_cases hk : b.index = c.index
    · have hbc : b = c := by cases b; cases c; simp_all
      subst hbc
      simp [block, hb', Array.getElem_modify]
    · have hbc : b ≠ c := fun heq => hk (congrArg BlockRef.index heq)
      simp [block, Array.getD_eq_getD_getElem?, Array.getElem?_modify, hk, hbc]
  · have hbc : b ≠ c := fun heq => hf (congrArg BlockRef.func heq)
    rw [if_neg fun h => hf h.1, if_neg hbc, block]

/-- A change of a block that is not there is none. -/
theorem modifyBlock_of_not_hasBlock {b : BlockRef} (hb : ¬ p.HasBlock b) (g : Block → Block) :
    p.modifyBlock b g = p := by
  have hsame : p.funcs.modify b.func (fun f => { f with blocks := f.blocks.modify b.index g }) =
      p.funcs := by
    apply Array.ext
    · exact Array.size_modify
    · intro k hk hk'
      rw [Array.getElem_modify]
      split
      · next hf =>
        have hfunc : p.func b.func = p.funcs[k] := by
          rw [func, hf, Array.getD_eq_getD_getElem?, Array.getElem?_eq_getElem hk', Option.getD_some]
        have hnone : p.funcs[k].blocks.size ≤ b.index := by
          rw [← hfunc]
          exact Nat.le_of_not_lt hb
        have hblocks : p.funcs[k].blocks.modify b.index g = p.funcs[k].blocks := by
          apply Array.ext
          · exact Array.size_modify
          · intro n hn hn'
            rw [Array.getElem_modify, if_neg (Nat.ne_of_gt (Nat.lt_of_lt_of_le hn' hnone))]
        rw [hblocks]
      · rfl
  rw [modifyBlock, modifyFunc, hsame]

/-- A change of a block leaves the number of blocks alone, and all that is not a block. -/
theorem func_modifyBlock (p : Program) (b : BlockRef) (g : Block → Block) (f : FuncId) :
    ∃ blocks, blocks.size = (p.func f).blocks.size ∧
      (p.modifyBlock b g).func f = { p.func f with blocks := blocks } := by
  rw [modifyBlock, func_modifyFunc]
  split
  · exact ⟨_, Array.size_modify, rfl⟩
  · exact ⟨_, rfl, rfl⟩

/-! ### What the pointers are not -/

/-- `q` differs from `p` in links, and in the ends and sizes of blocks only. -/
structure Relinked (p q : Program) : Prop where
  /-- Only functions and links differ. -/
  frame : ∃ fs ls, q = { p with funcs := fs, links := ls }
  /-- There are as many functions. -/
  size : q.funcs.size = p.funcs.size
  /-- Functions have as many blocks, and differ in nothing else. -/
  func : ∀ f, ∃ blocks, blocks.size = (p.func f).blocks.size ∧ q.func f = { p.func f with blocks := blocks }
  /-- Blocks have the same lists. -/
  block : ∀ b, ∃ head tail size,
    q.block b = { p.block b with head := head, tail := tail, size := size }

namespace Relinked

theorem refl (p : Program) : Relinked p p :=
  ⟨⟨_, _, rfl⟩, rfl, fun _ => ⟨_, rfl, rfl⟩, fun _ => ⟨_, _, _, rfl⟩⟩

theorem trans {r : Program} (h : Relinked p q) (h' : Relinked q r) : Relinked p r where
  frame := by
    obtain ⟨fs, ls, rfl⟩ := h.frame
    obtain ⟨fs', ls', rfl⟩ := h'.frame
    exact ⟨fs', ls', rfl⟩
  size := h'.size.trans h.size
  func f := by
    obtain ⟨blocks, hsize, heq⟩ := h.func f
    obtain ⟨blocks', hsize', heq'⟩ := h'.func f
    rw [heq] at hsize' heq'
    exact ⟨blocks', hsize'.trans hsize, heq'⟩
  block b := by
    obtain ⟨_, _, _, heq⟩ := h.block b
    obtain ⟨head, tail, size, heq'⟩ := h'.block b
    rw [heq] at heq'
    exact ⟨head, tail, size, heq'⟩

theorem modifyLinks (p : Program) (i : InstrId) (g : Links → Links) : Relinked p (p.modifyLinks i g) :=
  ⟨⟨_, _, rfl⟩, rfl, fun _ => ⟨_, rfl, rfl⟩, fun _ => ⟨_, _, _, rfl⟩⟩

theorem modifyBlock (p : Program) (b : BlockRef) {g : Block → Block}
    (hg : ∀ blk, ∃ head tail size, g blk = { blk with head := head, tail := tail, size := size }) :
    Relinked p (p.modifyBlock b g) where
  frame := ⟨_, _, rfl⟩
  size := Array.size_modify
  func := p.func_modifyBlock b g
  block c := by
    by_cases hb : p.HasBlock b
    · rw [block_modifyBlock hb]
      split
      · next hbc =>
        subst hbc
        exact hg _
      · exact ⟨_, _, _, rfl⟩
    · rw [modifyBlock_of_not_hasBlock hb]
      exact ⟨_, _, _, rfl⟩

variable (h : Relinked p q)

include h

theorem instrs_eq : q.instrs = p.instrs := by
  obtain ⟨fs, ls, rfl⟩ := h.frame
  rfl

theorem instr (i : InstrId) : q.instr i = p.instr i := by
  rw [Program.instr, h.instrs_eq]
  rfl

theorem usesOf (v : Value) : q.usesOf v = p.usesOf v := by
  obtain ⟨fs, ls, rfl⟩ := h.frame
  rfl

theorem hasBlock {b : BlockRef} : q.HasBlock b ↔ p.HasBlock b := by
  obtain ⟨blocks, hsize, heq⟩ := h.func b.func
  rw [HasBlock, HasBlock, heq, hsize]

end Relinked

/-! ### The operations -/

theorem relinked_leadOn (p : Program) (b : BlockRef) (next at? : Option InstrId) :
    Relinked p (p.leadOn b next at?) := by
  cases at? with
  | none => exact .modifyBlock p b fun _ => ⟨_, _, _, rfl⟩
  | some i => exact .modifyLinks p i _

theorem relinked_leadBack (p : Program) (b : BlockRef) (prev at? : Option InstrId) :
    Relinked p (p.leadBack b prev at?) := by
  cases at? with
  | none => exact .modifyBlock p b fun _ => ⟨_, _, _, rfl⟩
  | some i => exact .modifyLinks p i _

theorem relinked_linkLast (p : Program) (b : BlockRef) (i : InstrId) : Relinked p (p.linkLast b i) :=
  ((Relinked.modifyLinks p i _).trans (relinked_leadOn _ _ _ _)).trans <|
    .modifyBlock _ _ fun _ => ⟨_, _, _, rfl⟩

theorem relinked_linkBefore (p : Program) (b : BlockRef) (i pos : InstrId) :
    Relinked p (p.linkBefore b i pos) :=
  (((Relinked.modifyLinks p i _).trans (relinked_leadOn _ _ _ _)).trans (.modifyLinks _ _ _)).trans <|
    .modifyBlock _ _ fun _ => ⟨_, _, _, rfl⟩

theorem relinked_unlink (p : Program) (b : BlockRef) (i : InstrId) : Relinked p (p.unlink b i) :=
  ((relinked_leadOn p _ _ _).trans (relinked_leadBack _ _ _ _)).trans <|
    .modifyBlock _ _ fun _ => ⟨_, _, _, rfl⟩

theorem links_leadOn (p : Program) (b : BlockRef) (next at? : Option InstrId) :
    (p.leadOn b next at?).links = relink p.links (fun l => { l with next := next }) at? := by
  cases at? <;> rfl

theorem links_leadBack (p : Program) (b : BlockRef) (prev at? : Option InstrId) :
    (p.leadBack b prev at?).links = relink p.links (fun l => { l with prev := prev }) at? := by
  cases at? <;> rfl

theorem links_linkLast (p : Program) (b : BlockRef) (i : InstrId) :
    (p.linkLast b i).links = relink (p.links.modify i fun l => { l with prev := (p.block b).tail })
      (fun l => { l with next := some i }) (p.block b).tail :=
  links_leadOn _ b (some i) (p.block b).tail

theorem links_linkBefore (p : Program) (b : BlockRef) (i pos : InstrId) :
    (p.linkBefore b i pos).links =
      (relink (p.links.modify i fun _ => { prev := p.prev? pos, next := some pos })
        (fun l => { l with next := some i }) (p.prev? pos)).modify pos
        fun l => { l with prev := some i } := by
  have hlead := links_leadOn (p.modifyLinks i fun _ => { prev := p.prev? pos, next := some pos }) b
    (some i) (p.prev? pos)
  exact congrArg (·.modify pos fun l => { l with prev := some i }) hlead

theorem links_unlink (p : Program) (b : BlockRef) (i : InstrId) :
    (p.unlink b i).links =
      relink (relink p.links (fun l => { l with next := p.next? i }) (p.prev? i))
        (fun l => { l with prev := p.prev? i }) (p.next? i) := by
  rw [← links_leadOn p b]
  exact links_leadBack _ b _ _

section Block

variable {b : BlockRef} (hb : p.HasBlock b)

include hb

theorem block_leadOn (next at? : Option InstrId) (c : BlockRef) : (p.leadOn b next at?).block c =
    if b = c then { p.block b with head := if at? = none then next else (p.block b).head }
      else p.block c := by
  cases at? with
  | none =>
    rw [if_pos rfl]
    exact block_modifyBlock hb c _
  | some i =>
    rw [if_neg (Option.some_ne_none i)]
    split
    · next hbc => rw [hbc]; rfl
    · rfl

theorem block_leadBack (prev at? : Option InstrId) (c : BlockRef) : (p.leadBack b prev at?).block c =
    if b = c then { p.block b with tail := if at? = none then prev else (p.block b).tail }
      else p.block c := by
  cases at? with
  | none =>
    rw [if_pos rfl]
    exact block_modifyBlock hb c _
  | some i =>
    rw [if_neg (Option.some_ne_none i)]
    split
    · next hbc => rw [hbc]; rfl
    · rfl

theorem block_linkLast (i : InstrId) (c : BlockRef) : (p.linkLast b i).block c =
    if b = c then { p.block b with
      head := if (p.block b).tail = none then some i else (p.block b).head
      tail := some i, size := (p.block b).size + 1 } else p.block c := by
  let q := p.modifyLinks i fun l => { l with prev := (p.block b).tail }
  have hq : (q.leadOn b (some i) (p.block b).tail).HasBlock b := (relinked_leadOn q _ _ _).hasBlock.mpr hb
  have hlead := block_leadOn (p := q) hb (some i) (p.block b).tail
  change (modifyBlock (q.leadOn b (some i) (p.block b).tail) b _).block c = _
  rw [block_modifyBlock hq, hlead b, hlead c, if_pos rfl]
  split <;> rfl

theorem block_linkBefore (i pos : InstrId) (c : BlockRef) : (p.linkBefore b i pos).block c =
    if b = c then { p.block b with
      head := if p.prev? pos = none then some i else (p.block b).head
      size := (p.block b).size + 1 } else p.block c := by
  let q := p.modifyLinks i fun _ => { prev := p.prev? pos, next := some pos }
  let r := (q.leadOn b (some i) (p.prev? pos)).modifyLinks pos fun l => { l with prev := some i }
  have hlead : ∀ c, r.block c = _ := block_leadOn (p := q) hb (some i) (p.prev? pos)
  have hr : r.HasBlock b := (relinked_leadOn q _ _ _).hasBlock.mpr hb
  change (modifyBlock r b _).block c = _
  rw [block_modifyBlock hr, hlead b, hlead c, if_pos rfl]
  split <;> rfl

theorem block_unlink (i : InstrId) (c : BlockRef) : (p.unlink b i).block c =
    if b = c then { p.block b with
      head := if p.prev? i = none then p.next? i else (p.block b).head
      tail := if p.next? i = none then p.prev? i else (p.block b).tail
      size := (p.block b).size - 1 } else p.block c := by
  let q := p.leadOn b (p.next? i) (p.prev? i)
  have hq : q.HasBlock b := (relinked_leadOn p _ _ _).hasBlock.mpr hb
  have hr : (q.leadBack b (p.prev? i) (p.next? i)).HasBlock b := (relinked_leadBack q _ _ _).hasBlock.mpr hq
  have hon : ∀ c, q.block c = _ := block_leadOn hb (p.next? i) (p.prev? i)
  have hback := block_leadBack hq (p.prev? i) (p.next? i)
  change (modifyBlock (q.leadBack b (p.prev? i) (p.next? i)) b _).block c = _
  rw [block_modifyBlock hr, hback b, hback c, hon b, hon c, if_pos rfl]
  split
  · rw [if_pos rfl]
  · next hbc => rfl

end Block

end Program

end Midend
