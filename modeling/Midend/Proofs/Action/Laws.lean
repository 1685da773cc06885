import Midend.Command

/-!
# What actions do

An action ends in a result or in a fault, and in either case it leaves a state behind.  The
predicate `Act.Ensures` says what holds then.  Its laws follow the ways actions are put together,
so that a statement about an action turns, step by step, into a statement about the states it goes
through; each law is an equivalence and nothing is lost on the way.

## Main definitions

* `Act.Ensures m s Q E`: run from `s`, the action `m` ends in a result and a state related by `Q`,
  or in a fault and a state related by `E`.
* `Act.Succeeds m s Q`: the same, and there is no fault.
* `Act.Keeps I m`: the action keeps the property `I` of states, whether it fails or not.
* `Pass.Composable H`: the property `H` of passes goes from the parts of a run to the run.

## Main results

* `Act.ensures_bind`: one action after another.
* `Act.Keeps.bind`: properties that both parts keep.
* `Pass.Composable.optimizing`: what a run of the optimizer has from its passes.
-/

namespace Midend

namespace Act

variable {σ α β : Type} {s : σ} {Q : α → σ → Prop} {E : Fault → σ → Prop}

/-- Run from `s`, the action ends in a result and a state that `Q` relates, or in a fault and a
state that `E` relates. -/
def Ensures (m : Act σ α) (s : σ) (Q : α → σ → Prop) (E : Fault → σ → Prop) : Prop :=
  match m s with
  | (.ok a, s') => Q a s'
  | (.error f, s') => E f s'

/-- Run from `s`, the action ends without a fault, in a result and a state that `Q` relates. -/
abbrev Succeeds (m : Act σ α) (s : σ) (Q : α → σ → Prop) : Prop := m.Ensures s Q fun _ _ => False

/-- Whatever comes of the action, a state with the property `I` is left with it. -/
def Keeps (I : σ → Prop) (m : Act σ α) : Prop := ∀ s, I s → m.Ensures s (fun _ => I) (fun _ => I)

/-! ### Single steps -/

theorem bind_of_ok {ε : Type} {m : ExceptT ε (StateM σ) α} {k : α → ExceptT ε (StateM σ) β} {s s' : σ}
    {a : α} (h : m s = (.ok a, s')) : (m >>= k) s = k a s' := by
  change (ExceptT.bindCont k (m s).1) (m s).2 = _
  rw [h]
  rfl

theorem bind_of_error {ε : Type} {m : ExceptT ε (StateM σ) α} {k : α → ExceptT ε (StateM σ) β} {s s' : σ}
    {e : ε} (h : m s = (.error e, s')) : (m >>= k) s = (.error e, s') := by
  change (ExceptT.bindCont k (m s).1) (m s).2 = _
  rw [h]
  rfl

/-- What follows depends on the run of the first action only. -/
theorem bind_congr_run {ε : Type} {m m' : ExceptT ε (StateM σ) α} {k : α → ExceptT ε (StateM σ) β}
    {s : σ} (h : m s = m' s) : (m >>= k) s = (m' >>= k) s := by
  change (ExceptT.bindCont k (m s).1) (m s).2 = (ExceptT.bindCont k (m' s).1) (m' s).2
  rw [h]

@[simp] theorem ensures_pure (a : α) : (pure a : Act σ α).Ensures s Q E ↔ Q a s := Iff.rfl

@[simp] theorem ensures_bind (m : Act σ α) (f : α → Act σ β) {Q : β → σ → Prop} :
    (m >>= f).Ensures s Q E ↔ m.Ensures s (fun a s' => (f a).Ensures s' Q E) E := by
  have hrun : (m >>= f) s = match m s with
      | (.ok a, s') => f a s'
      | (.error e, s') => (.error e, s') := by
    change (match m s with | (r, s') => (ExceptT.bindCont f r) s') = _
    rcases m s with ⟨_ | _, _⟩ <;> rfl
  unfold Ensures
  rw [hrun]
  rcases m s with ⟨_ | _, _⟩ <;> rfl

@[simp] theorem ensures_map (m : Act σ α) (f : α → β) {Q : β → σ → Prop} :
    (f <$> m).Ensures s Q E ↔ m.Ensures s (fun a s' => Q (f a) s') E := by
  rw [← bind_pure_comp, ensures_bind]
  rfl

@[simp] theorem ensures_discard (m : Act σ α) {Q : Unit → σ → Prop} :
    (discard m).Ensures s Q E ↔ m.Ensures s (fun _ s' => Q () s') E :=
  ensures_map m fun _ => ()

@[simp] theorem ensures_get {Q : σ → σ → Prop} : (get : Act σ σ).Ensures s Q E ↔ Q s s := Iff.rfl

@[simp] theorem ensures_modify (f : σ → σ) {Q : PUnit → σ → Prop} :
    (modify f : Act σ PUnit).Ensures s Q E ↔ Q () (f s) := Iff.rfl

@[simp] theorem ensures_modifyGet (f : σ → α × σ) :
    (modifyGet f : Act σ α).Ensures s Q E ↔ Q (f s).1 (f s).2 := Iff.rfl

@[simp] theorem ensures_demand_some (a : α) :
    (demand (some a) : Act σ α).Ensures s Q E ↔ Q a s := Iff.rfl

@[simp] theorem ensures_ofExcept_ok (a : α) :
    (ofExcept (.ok a) : Act σ α).Ensures s Q E ↔ Q a s := Iff.rfl

/-- An action whose result and state are known. -/
theorem ensures_of_run {m : Act σ α} {a : α} {t : σ} (h : m s = (.ok a, t)) :
    m.Ensures s Q E ↔ Q a t := by
  unfold Ensures
  rw [h]

theorem Ensures.mono {m : Act σ α} {Q' : α → σ → Prop} {E' : Fault → σ → Prop}
    (h : m.Ensures s Q E) (hQ : ∀ a s', Q a s' → Q' a s') (hE : ∀ f s', E f s' → E' f s') :
    m.Ensures s Q' E' := by
  unfold Ensures at h ⊢
  rcases hm : m s with ⟨_ | _, _⟩
  · rw [hm] at h
    exact hE _ _ h
  · rw [hm] at h
    exact hQ _ _ h

/-- Two statements about one run hold together. -/
theorem Ensures.and {m : Act σ α} {Q' : α → σ → Prop} {E' : Fault → σ → Prop} (h : m.Ensures s Q E)
    (h' : m.Ensures s Q' E') :
    m.Ensures s (fun a t => Q a t ∧ Q' a t) fun f t => E f t ∧ E' f t := by
  unfold Ensures at h h' ⊢
  rcases hm : m s with ⟨_ | _, _⟩
  · rw [hm] at h h'
    exact ⟨h, h'⟩
  · rw [hm] at h h'
    exact ⟨h, h'⟩

theorem Succeeds.mono {m : Act σ α} {Q' : α → σ → Prop} (h : m.Succeeds s Q)
    (hQ : ∀ a s', Q a s' → Q' a s') : m.Succeeds s Q' :=
  Ensures.mono h hQ fun _ _ => id

/-- An action that succeeds has a result. -/
theorem Succeeds.exists_eq {m : Act σ α} (h : m.Succeeds s Q) :
    ∃ a s', m s = (.ok a, s') ∧ Q a s' := by
  unfold Succeeds Ensures at h
  rcases hm : m s with ⟨_ | a, s'⟩
  · rw [hm] at h
    exact h.elim
  · rw [hm] at h
    exact ⟨a, s', rfl, h⟩

/-- A result that is there, followed by one that is there. -/
theorem exists_bind_ok {ε : Type} {x : Except ε α} {f : α → Except ε β} (hx : ∃ a, x = .ok a)
    (hf : ∀ a, ∃ b, f a = .ok b) : ∃ b, (x >>= f) = .ok b := by
  obtain ⟨a, rfl⟩ := hx
  exact hf a

/-- Results that are all there. -/
theorem exists_mapM_ok {ε : Type} {f : α → Except ε β} (l : List α)
    (h : ∀ a ∈ l, ∃ b, f a = .ok b) : ∃ bs, l.mapM f = .ok bs := by
  induction l with
  | nil => exact ⟨[], rfl⟩
  | cons a l ih =>
    rw [List.mapM_cons]
    refine exists_bind_ok (h a List.mem_cons_self) fun b => ?_
    refine exists_bind_ok (ih fun c hc => h c (List.mem_cons_of_mem a hc)) fun bs => ?_
    exact ⟨b :: bs, rfl⟩

/-! ### Kept properties -/

variable {I : σ → Prop}

/-- What holds of the state in either case holds of the state that is left. -/
theorem Ensures.state {m : Act σ α} (h : m.Ensures s (fun _ => I) fun _ => I) : I (m s).2 := by
  unfold Ensures at h
  rcases hm : m s with ⟨_ | _, _⟩ <;> rw [hm] at h <;> exact h

/-- The state behind an action that keeps a property has that property. -/
theorem Keeps.state {m : Act σ α} (h : Keeps I m) (hs : I s) : I (m s).2 := (h s hs).state

theorem Succeeds.ensures {m : Act σ α} {Q : α → σ → Prop} (h : m.Succeeds s Q)
    (hI : ∀ a t, Q a t → I t) : m.Ensures s (fun _ => I) fun _ => I :=
  Ensures.mono h hI fun _ _ => False.elim

theorem Keeps.of_succeeds {m : Act σ α} (h : ∀ s, I s → m.Succeeds s fun _ => I) : Keeps I m :=
  fun s hs => (h s hs).ensures fun _ _ => id

theorem Keeps.pure (a : α) : Keeps I (pure a : Act σ α) := fun _ hs => hs

theorem Keeps.throw (f : Fault) : Keeps I (throw f : Act σ α) := fun _ hs => hs

theorem Keeps.get : Keeps I (get : Act σ σ) := fun _ hs => hs

theorem Keeps.demand (o : Option α) : Keeps I (demand o : Act σ α) := by
  cases o with
  | none => exact fun _ hs => hs
  | some a => exact fun _ hs => hs

theorem Keeps.modify {f : σ → σ} (h : ∀ s, I s → I (f s)) :
    Keeps I (modify f : Act σ PUnit) := fun s hs => h s hs

theorem Keeps.modifyGet {f : σ → α × σ} (h : ∀ s, I s → I (f s).2) :
    Keeps I (modifyGet f : Act σ α) := fun s hs => h s hs

theorem Keeps.bind {m : Act σ α} {f : α → Act σ β} (hm : Keeps I m) (hf : ∀ a, Keeps I (f a)) :
    Keeps I (m >>= f) := by
  intro s hs
  rw [ensures_bind]
  exact (hm s hs).mono (fun a s' hs' => hf a s' hs') fun _ _ => id

theorem Keeps.discard {m : Act σ α} (hm : Keeps I m) : Keeps I (discard m) := by
  intro s hs
  rw [ensures_discard]
  exact hm s hs

end Act

/-! ### Edits within sessions and workbenches -/

namespace Pass

variable {α : Type} {s : Session} {Q : α → Session → Prop} {E : Fault → Session → Prop}

@[simp] theorem ensures_edit (e : Edit α) :
    Act.Ensures (edit e) s Q E ↔ e.Ensures s.program
      (fun a p => Q a { s with program := p }) (fun f p => E f { s with program := p }) := by
  unfold Act.Ensures edit
  rcases e s.program with ⟨_ | _, _⟩ <;> exact Iff.rfl

@[simp] theorem ensures_program {Q : Program → Session → Prop} :
    Act.Ensures program s Q E ↔ Q s.program s := Iff.rfl

@[simp] theorem ensures_count (f : Stats → Stats) {Q : Unit → Session → Prop} :
    Act.Ensures (count f) s Q E ↔ Q () { s with stats := f s.stats } := Iff.rfl

@[simp] theorem ensures_visit (v : Visit) {Q : Unit → Session → Prop} :
    Act.Ensures (visit v) s Q E ↔ Q () { s with trace := s.trace.push v } := Iff.rfl

@[simp] theorem ensures_log (r : LogRecord) {Q : Unit → Session → Prop} :
    Act.Ensures (log r) s Q E ↔ Q () { s with log := s.log.push r } := Iff.rfl

end Pass

/-! ### Runs of the optimizer -/

/-- A property of passes and of the number of rounds that they may take.  It holds of everything that
stands between the passes of a run, and of one pass after another. -/
structure Pass.Composable (H : Nat → {α : Type} → Pass α → Prop) : Prop where
  pure : ∀ {α : Type} (a : α), H 0 (pure a : Pass α)
  bind : ∀ {α β : Type} {n k : Nat} {m : Pass α} {f : α → Pass β}, H n m → (∀ a, H k (f a)) →
    H (n + k) (m >>= f)
  /-- A pass need not take all of its rounds. -/
  mono : ∀ {α : Type} {n k : Nat} {m : Pass α}, H n m → n ≤ k → H k m
  get : H 0 (get : Pass Session)
  program : H 0 Pass.program
  log : ∀ r, H 0 (Pass.log r)
  /-- The beginning of a round. -/
  round : H 1 (Pass.count fun c => { c with rounds := c.rounds + 1 })

namespace Pass.Composable

variable {H : Nat → {α : Type} → Pass α → Prop} (h : Composable H)

include h

/-- One pass after another, where neither is a round of the walk. -/
theorem seq {α β : Type} {m : Pass α} {f : α → Pass β} (hm : H 0 m) (hf : ∀ a, H 0 (f a)) :
    H 0 (m >>= f) :=
  h.bind hm hf

/-- Rounds of the walk. -/
theorem rounds (hwalk : H 0 walk) (n : Nat) : H n (walkRounds n) := by
  induction n with
  | zero => exact h.pure ()
  | succ n ih =>
    have hrest : H (0 + n) (do if ← walk then walkRounds n) := by
      refine h.bind hwalk fun changed => ?_
      split
      · exact ih
      · exact h.mono (h.pure ()) (Nat.zero_le n)
    exact h.mono (h.bind h.round fun _ => hrest) (by omega)

theorem single (description : String) {pass : FuncId → Pass Bool} {f : FuncId} (hpass : H 0 (pass f)) :
    H 0 (runPass description pass f) := by
  unfold runPass
  refine h.seq hpass fun changed => ?_
  split
  · exact h.seq h.program fun _ => h.log _
  · exact h.pure ()

variable (hprop : ∀ f, H 0 (constProp f)) (hsweep : ∀ f, H 0 (sweep f))

include hprop hsweep

theorem funcPasses (l : List FuncId) : H 0 (runFuncPasses l) := by
  induction l with
  | nil => exact h.pure ()
  | cons f rest ih =>
    exact h.seq (h.single _ (hprop f)) fun _ => h.seq (h.single _ (hsweep f)) fun _ => ih

/-- All passes in order; the walk counts only if it is switched on. -/
theorem rewriting {o : Options} (hwalk : o.peephole = true → H 0 walk) :
    H o.maxRounds.toNat (rewritePass o) := by
  have hfuncs : H 0 (if o.constProp then do runFuncPasses (List.range (← Pass.program).funcs.size)
      else Pure.pure () : Pass Unit) := by
    split
    · exact h.seq h.program fun _ => h.funcPasses hprop hsweep _
    · exact h.pure ()
  unfold rewritePass
  by_cases hpeephole : o.peephole = true
  · rw [if_pos hpeephole]
    exact h.bind (h.rounds (hwalk hpeephole) _) fun _ => hfuncs
  · rw [if_neg hpeephole]
    exact h.mono hfuncs (Nat.zero_le _)

omit hprop hsweep in
theorem concluding (o : Options) : H 0 (concludePass o) := by
  unfold concludePass
  refine h.seq h.program fun p => ?_
  generalize (if o.verify = true then p.verify else []) = report
  dsimp only
  split
  · exact h.pure _
  · exact h.seq h.get fun _ => h.seq (h.log _) fun _ => h.pure _

/-- **A whole run** has what its passes have. -/
theorem optimizing {o : Options} (hwalk : o.peephole = true → H 0 walk) :
    H o.maxRounds.toNat (optimizePass o) :=
  h.bind (h.rewriting hprop hsweep hwalk) fun _ => h.concluding o

end Pass.Composable

namespace Workbench

variable {α : Type} {w : Workbench} {Q : α → Workbench → Prop} {E : Fault → Workbench → Prop}

@[simp] theorem ensures_edit (e : Edit α) :
    Act.Ensures (edit e) w Q E ↔ e.Ensures w.program
      (fun a p => Q a { w with program := p }) (fun f p => E f { w with program := p }) := by
  unfold Act.Ensures edit
  rcases e w.program with ⟨_ | _, _⟩ <;> exact Iff.rfl

@[simp] theorem ensures_runPass (pass : Pass α) {Q : α × Session → Workbench → Prop} :
    Act.Ensures (runPass pass) w Q E ↔ pass.Ensures { program := w.program }
      (fun a s => Q (a, s) { w with program := s.program })
      (fun f s => E f { w with program := s.program }) := by
  unfold Act.Ensures runPass
  rcases pass { program := w.program } with ⟨_ | _, _⟩ <;> exact Iff.rfl

end Workbench

end Midend
