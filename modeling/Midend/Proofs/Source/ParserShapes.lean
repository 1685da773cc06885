import Midend.Proofs.Action.Runs
import Midend.Source.Parser

/-!
# What the parser reads

What the syntax of an accepted text is known to have, whatever the text was: a store has two operands
and no result, an instruction with a name has a result, and the types of the results of functions
have names.

## Main definitions

* `Parser.Gives`: what holds of the result, wherever the parser stands.
* `InstrSyntax.Shaped`, `FuncSyntax.Shaped`: what is known of instructions and functions.

## Main results

* `Parser.gives_instr`, `Parser.gives_bodyFrom`: the constructs.
* `ProgramSyntax.shaped_of_parse`: the functions of an accepted text.
-/

namespace Midend.Source

namespace Parser

variable {α β : Type} {P : α → Prop} {R : β → Prop}

/-- Wherever the parser stands, what it accepts has the property `P`. -/
def Gives (m : Parser α) (P : α → Prop) : Prop := ∀ s, Yields m s fun a _ => P a

theorem Gives.pure {a : α} (h : P a) : Gives (pure a) P := fun _ => (yields_pure a).mpr h

theorem Gives.fail (pos : Position) (reason : Reason) : Gives (fail pos reason) P :=
  fun _ => yields_throw _

/-- Where something is known of the first result. -/
theorem Gives.bind {m : Parser α} {f : α → Parser β} (hm : Gives m P)
    (hf : ∀ a, P a → Gives (f a) R) : Gives (m >>= f) R :=
  fun s => (yields_bind m f).mpr ((hm s).mono fun a t ha => hf a ha t)

/-- Where nothing need be known of it. -/
theorem Gives.after {m : Parser α} {f : α → Parser β} (hf : ∀ a, Gives (f a) R) :
    Gives (m >>= f) R :=
  fun _ => (yields_bind m f).mpr fun a t _ => hf a t

/-- Nothing follows an error. -/
theorem Gives.fail_bind (pos : Position) (reason : Reason) (f : α → Parser β) :
    Gives (Parser.fail pos reason >>= f) R :=
  Gives.bind (P := fun _ => False) (.fail pos reason) fun _ h => h.elim

/-! ### Types -/

theorem name?_of_parse {text : String} {t : Ty} (h : Ty.parse text = .ok t) :
    t.name?.isSome = true := by
  unfold Ty.parse at h
  split at h
  · cases h
    rfl
  · split at h
    · cases h
      rfl
    · split at h
      · split at h
        · cases h
        · split at h
          · cases h
          · split at h
            · cases h
              rfl
            · cases h
      · cases h

theorem gives_ty : Gives ty fun t => t.name?.isSome = true := by
  unfold ty
  refine Gives.after fun t => Gives.after fun w => ?_
  split
  · next hparse => exact .pure (name?_of_parse hparse)
  · exact .fail _ _

end Parser

/-! ### Instructions -/

/-- What is known of an instruction that was read. -/
structure InstrSyntax.Shaped (i : InstrSyntax) : Prop where
  /-- A store has a value and an address, and no result. -/
  store : i.op = .store → i.args.length = 2 ∧ i.ty.isVoid = true
  /-- What has a name has a result. -/
  named : i.name ≠ "" → i.ty.isVoid = false

namespace Parser

theorem gives_operandPair : Gives operandPair fun l => l.length = 2 := by
  unfold operandPair
  exact Gives.after fun x => Gives.after fun _ => Gives.after fun y => .pure rfl

/-- The operands leave the operation and the name as they are, and a store gets two of them. -/
theorem gives_instrBody {i : InstrSyntax} (hi : i.ty.isVoid = true) :
    Gives (instrBody i) fun j => j.name = i.name ∧
      (j.op = .store → j.args.length = 2 ∧ j.ty.isVoid = true) := by
  unfold instrBody
  split
  · next hop =>
    exact .after fun _ => .after fun _ => .pure ⟨rfl, fun h => by simp [hop] at h⟩
  · next hop => exact .after fun _ => .pure ⟨rfl, fun h => by simp [hop] at h⟩
  · next hop =>
    exact .after fun _ => .after fun _ => .after fun _ => .pure ⟨rfl, fun h => by simp [hop] at h⟩
  · exact .after fun _ => gives_operandPair.bind fun args hargs => .pure ⟨rfl, fun _ => ⟨hargs, hi⟩⟩
  · next hop =>
    exact .after fun _ => .after fun _ => .after fun _ => .after fun _ => .after fun _ =>
      .after fun _ => .after fun _ => .pure ⟨rfl, fun h => by simp [hop] at h⟩
  · next hop => exact .after fun _ => .pure ⟨rfl, fun h => by simp [hop] at h⟩
  · next hop =>
    exact .after fun _ => .after fun _ => .after fun _ => .after fun _ => .after fun _ =>
      .pure ⟨rfl, fun h => by simp [hop] at h⟩
  · next hop =>
    refine .after fun t => ?_
    split
    · exact .after fun _ => .pure ⟨rfl, fun h => by simp [hop] at h⟩
    · exact .after fun _ => .after fun _ => .pure ⟨rfl, fun h => by simp [hop] at h⟩
  · next hstore _ _ _ _ =>
    exact .after fun _ => .after fun _ => .pure ⟨rfl, fun h => absurd h hstore⟩

theorem gives_instr (pos : Position) (name word : String) :
    Gives (instr pos name word) InstrSyntax.Shaped := by
  unfold instr
  split
  · exact .fail _ _
  · next op _ =>
    have hbody := gives_instrBody (i := { pos := pos, op := op, name := name }) rfl
    refine hbody.bind fun i hi => ?_
    obtain ⟨hname, hstore⟩ := hi
    split
    · exact .fail_bind _ _ _
    · next hvoid =>
      refine .after fun _ => .pure ⟨hstore, fun hne => ?_⟩
      rw [hname] at hne
      simpa [hne] using hvoid

/-! ### Functions -/

theorem mem_addToLast {blocks : List BlockSyntax} {i j : InstrSyntax} {b : BlockSyntax}
    (hb : b ∈ addToLast blocks i) (hj : j ∈ b.instrs) :
    j = i ∨ ∃ c ∈ blocks, j ∈ c.instrs := by
  unfold addToLast at hb
  split at hb
  · cases hb
  · next c before hrev =>
    have hmem : ∀ d ∈ c :: before, d ∈ blocks := by
      intro d hd
      rw [← List.mem_reverse, hrev]
      exact hd
    rw [List.mem_append, List.mem_reverse, List.mem_singleton] at hb
    rcases hb with hb | rfl
    · exact .inr ⟨b, hmem b (List.mem_cons_of_mem c hb), hj⟩
    · rcases List.mem_append.mp hj with hj | hj
      · exact .inr ⟨c, hmem c List.mem_cons_self, hj⟩
      · exact .inl (List.mem_singleton.mp hj)

theorem gives_bodyFrom (func : String) (fuel : Nat) (blocks : List BlockSyntax)
    (h : ∀ b ∈ blocks, ∀ i ∈ b.instrs, i.Shaped) :
    Gives (bodyFrom func fuel blocks) fun bs => ∀ b ∈ bs, ∀ i ∈ b.instrs, i.Shaped := by
  induction fuel generalizing blocks with
  | zero => exact .pure h
  | succ fuel ih =>
    have hadd : ∀ i : InstrSyntax, i.Shaped →
        Gives (bodyFrom func fuel (addToLast blocks i)) fun bs => ∀ b ∈ bs, ∀ i ∈ b.instrs, i.Shaped := by
      intro i hi
      refine ih _ fun b hb j hj => ?_
      rcases mem_addToLast hb hj with rfl | ⟨c, hc, hj⟩
      · exact hi
      · exact h c hc j hj
    unfold bodyFrom
    refine .after fun _ => .after fun t => ?_
    split
    · exact .pure h
    · refine .after fun _ => .after fun result => .after fun _ => .after fun op => ?_
      split
      · exact .fail_bind _ _ _
      · exact (gives_instr _ _ _).bind hadd
    · exact .fail _ _
    · refine .after fun first => .after fun colon => ?_
      split
      · refine .after fun _ => ih _ fun b hb i hi => ?_
        rcases List.mem_append.mp hb with hb | hb
        · exact h b hb i hi
        · rw [List.mem_singleton.mp hb] at hi
          cases hi
      · split
        · exact .fail _ _
        · exact (gives_instr _ _ _).bind hadd

end Parser

/-- What is known of a function that was read. -/
structure FuncSyntax.Shaped (f : FuncSyntax) : Prop where
  /-- The type of its result has a name. -/
  ret : f.ret.name?.isSome = true
  /-- Its instructions have their shape. -/
  instrs : ∀ b ∈ f.blocks, ∀ i ∈ b.instrs, i.Shaped

namespace Parser

theorem gives_func (pos : Position) : Gives (func pos) FuncSyntax.Shaped := by
  unfold func
  refine .after fun _ => .after fun name => .after fun _ => .after fun _ => .after fun params =>
    .after fun _ => .after fun colon => ?_
  have hrest : ∀ ret : Ty, ret.name?.isSome = true → Gives (do
      mark '\x7b'
      let blocks ← bodyFrom name ((← tokensLeft) + 1) []
      mark '\x7d'
      endOfLine
      pure { pos := pos, name := name, ret := ret, params := params, blocks := blocks })
      FuncSyntax.Shaped := by
    intro ret hret
    refine .after fun _ => .after fun _ => ?_
    refine (gives_bodyFrom name _ [] (by simp)).bind fun blocks hblocks => ?_
    exact .after fun _ => .after fun _ => .pure ⟨hret, hblocks⟩
  dsimp only
  split
  · exact .after fun _ => gives_ty.bind hrest
  · rw [pure_bind]
    exact hrest Ty.void rfl

theorem gives_declsFrom (fuel : Nat) (p : ProgramSyntax) (h : ∀ f ∈ p.funcs, f.Shaped) :
    Gives (declsFrom fuel p) fun q => ∀ f ∈ q.funcs, f.Shaped := by
  induction fuel generalizing p with
  | zero => exact .pure h
  | succ fuel ih =>
    unfold declsFrom
    refine .after fun _ => .after fun t => ?_
    split
    · exact .pure h
    · refine .after fun w => ?_
      split
      · exact .after fun g => ih _ h
      · split
        · refine (gives_func _).bind fun f hf => ih _ fun f' hf' => ?_
          rcases List.mem_append.mp hf' with hf' | hf'
          · exact h f' hf'
          · rw [List.mem_singleton.mp hf']
            exact hf
        · exact .fail _ _

end Parser

/-- **The functions of an accepted text have their shape.** -/
theorem ProgramSyntax.shaped_of_parse {symbols : List Text.Symbol} {p : ProgramSyntax}
    (h : ProgramSyntax.parse symbols = .ok p) : ∀ f ∈ p.funcs, f.Shaped := by
  have hprogram : Parser.Gives (do Parser.enter (.ofSymbols symbols); Parser.program)
      fun q => ∀ f ∈ q.funcs, f.Shaped :=
    .after fun _ => .after fun n => Parser.gives_declsFrom _ _ (by simp)
  obtain ⟨t, hrun⟩ := run'_eq_ok.mp h
  exact hprogram _ p t hrun

end Midend.Source
