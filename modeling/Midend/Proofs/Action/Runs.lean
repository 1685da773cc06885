/-!
# Accepted runs

An action on source text is accepted, with a result and a new state, or rejected.  The laws below say
when an action that is put together from others is accepted, so that a statement about a run turns
into statements about its steps.

## Main definitions

* `Yields m s Q`: run from `s`, the action `m` is rejected or ends in a result and a state that `Q`
  relates.
* `Decides m s C Q`: run from `s`, the action `m` is accepted just if `C` holds, and then it ends in a
  result and a state that `Q` relates.

## Main results

* `bind_eq_ok`, `bind_eq_error`: one action after another.
* `Decides.bind`: conditions of both parts.
-/

namespace Midend.Source

variable {σ ε α β : Type} {s t : σ}

/-! ### Steps of a run -/

section Steps

variable {a b : α}

@[simp] theorem pure_eq_ok :
    (pure a : StateT σ (Except ε) α) s = .ok (b, t) ↔ a = b ∧ s = t := by
  change Except.ok (a, s) = .ok (b, t) ↔ _
  rw [Except.ok.injEq, Prod.mk.injEq]

@[simp] theorem throw_eq_ok {e : ε} {r : α × σ} :
    (throw e : StateT σ (Except ε) α) s = .ok r ↔ False := by
  change Except.error e = .ok r ↔ _
  simp

@[simp] theorem bind_eq_ok {m : StateT σ (Except ε) α} {f : α → StateT σ (Except ε) β}
    {r : β × σ} :
    (m >>= f) s = .ok r ↔ ∃ a t, m s = .ok (a, t) ∧ f a t = .ok r := by
  change Except.bind (m s) (fun x => f x.1 x.2) = _ ↔ _
  cases m s with
  | error e => simp [Except.bind]
  | ok r' =>
    obtain ⟨a, t⟩ := r'
    constructor
    · exact fun h => ⟨a, t, rfl, h⟩
    · rintro ⟨a', t', ⟨⟩, h⟩
      exact h

theorem bind_eq_error {m : StateT σ (Except ε) α} {f : α → StateT σ (Except ε) β} {e : ε} :
    (m >>= f) s = .error e ↔ m s = .error e ∨ ∃ a t, m s = .ok (a, t) ∧ f a t = .error e := by
  change Except.bind (m s) (fun x => f x.1 x.2) = _ ↔ _
  cases m s with
  | error e' => simp [Except.bind]
  | ok r =>
    constructor
    · exact fun h => .inr ⟨r.1, r.2, rfl, h⟩
    · rintro (⟨⟨⟩⟩ | ⟨a, t, ⟨⟩, h⟩)
      exact h

theorem bind_of_ok {m : StateT σ (Except ε) α} {f : α → StateT σ (Except ε) β}
    (h : m s = .ok (a, t)) : (m >>= f) s = f a t := by
  change Except.bind (m s) (fun x => f x.1 x.2) = _
  rw [h]
  rfl

@[simp] theorem set_eq_ok {x : σ} {u : PUnit} :
    (set x : StateT σ (Except ε) PUnit) s = .ok (u, t) ↔ x = t := by
  change Except.ok (PUnit.unit, x) = .ok (u, t) ↔ _
  simp

/-- The result of a run without its state. -/
theorem run'_eq_ok {m : StateT σ (Except ε) α} : m.run' s = .ok a ↔ ∃ t, m s = .ok (a, t) := by
  change (m s).map Prod.fst = .ok a ↔ _
  cases m s with
  | error e => simp [Except.map]
  | ok r =>
    obtain ⟨b, t⟩ := r
    simp [Except.map]

theorem exists_of_bind_ok {x : Except ε α} {f : α → Except ε β} {b : β}
    (h : (x >>= f) = .ok b) : ∃ a, x = .ok a ∧ f a = .ok b := by
  cases x with
  | error e => cases h
  | ok a => exact ⟨a, rfl, h⟩

theorem mapError_eq_ok {ε' : Type} {x : Except ε α} {g : ε → ε'} : x.mapError g = .ok a ↔ x = .ok a := by
  cases x with
  | error e => exact iff_of_false (fun h => by cases h) (fun h => by cases h)
  | ok b =>
    constructor
    · exact fun h => congrArg Except.ok (Except.ok.inj h)
    · exact fun h => congrArg Except.ok (Except.ok.inj h)

/-- Results without errors can be compared. -/
theorem eq_ok_of_toOption {x : Except ε α} (h : x.toOption = some a) : x = .ok a := by
  cases x with
  | error e => simp [Except.toOption] at h
  | ok b => exact congrArg Except.ok (Option.some.inj h)

/-- Errors can be compared whatever the results are. -/
theorem eq_error_of_map {x : Except ε α} {f : α → β} {e : ε} (h : x.map f = .error e) : x = .error e := by
  cases x with
  | error e' => exact congrArg Except.error (Except.error.inj h)
  | ok a => cases h

end Steps

/-! ### Accepted results -/

section Yields

variable {Q : α → σ → Prop}

/-- Run from `s`, the action is rejected or ends in a result and a state that `Q` relates. -/
def Yields (m : StateT σ (Except ε) α) (s : σ) (Q : α → σ → Prop) : Prop :=
  ∀ a t, m s = .ok (a, t) → Q a t

@[simp] theorem yields_pure (a : α) : Yields (ε := ε) (pure a) s Q ↔ Q a s := by
  constructor
  · exact fun h => h a s rfl
  · rintro h b t ⟨⟩
    exact h

@[simp] theorem yields_throw (e : ε) : Yields (throw e : StateT σ (Except ε) α) s Q :=
  fun _ _ h => by cases h

@[simp] theorem yields_bind (m : StateT σ (Except ε) α) (f : α → StateT σ (Except ε) β)
    {Q : β → σ → Prop} :
    Yields (m >>= f) s Q ↔ Yields m s fun a t => Yields (f a) t Q := by
  constructor
  · intro h a t hm b u hf
    exact h b u (bind_eq_ok.mpr ⟨a, t, hm, hf⟩)
  · intro h b u hrun
    obtain ⟨a, t, hm, hf⟩ := bind_eq_ok.mp hrun
    exact h a t hm b u hf

@[simp] theorem yields_get {Q : σ → σ → Prop} :
    Yields (get : StateT σ (Except ε) σ) s Q ↔ Q s s :=
  yields_pure s

@[simp] theorem yields_modify (f : σ → σ) {Q : PUnit → σ → Prop} :
    Yields (modify f : StateT σ (Except ε) PUnit) s Q ↔ Q () (f s) := by
  constructor
  · exact fun h => h () (f s) rfl
  · rintro h b t ⟨⟩
    exact h

@[simp] theorem yields_modifyGet (f : σ → α × σ) :
    Yields (modifyGet f : StateT σ (Except ε) α) s Q ↔ Q (f s).1 (f s).2 := by
  constructor
  · exact fun h => h _ _ rfl
  · intro h b t hrun
    have hpair : f s = (b, t) := Except.ok.inj hrun
    rw [hpair] at h
    exact h

@[simp] theorem yields_map (m : StateT σ (Except ε) α) (f : α → β) {Q : β → σ → Prop} :
    Yields (f <$> m) s Q ↔ Yields m s fun a t => Q (f a) t := by
  rw [← bind_pure_comp, yields_bind]
  simp only [yields_pure]

@[simp] theorem yields_discard (m : StateT σ (Except ε) α) {Q : Unit → σ → Prop} :
    Yields (discard m) s Q ↔ Yields m s fun _ t => Q () t :=
  yields_map m fun _ => ()

theorem Yields.mono {m : StateT σ (Except ε) α} {Q' : α → σ → Prop} (h : Yields m s Q)
    (hQ : ∀ a t, Q a t → Q' a t) : Yields m s Q' :=
  fun a t hm => hQ a t (h a t hm)

end Yields

/-! ### Conditions of acceptance -/

/-- Run from `s`, the action is accepted just if `C` holds, and then it ends in a result and a state
that `Q` relates. -/
def Decides (m : StateT σ (Except ε) α) (s : σ) (C : Prop) (Q : α → σ → Prop) : Prop :=
  (∀ a t, m s = .ok (a, t) → C ∧ Q a t) ∧ (C → ∃ a t, m s = .ok (a, t))

namespace Decides

variable {C D : Prop} {Q : α → σ → Prop} {R : β → σ → Prop}

theorem accepted {m : StateT σ (Except ε) α} (h : Decides m s C Q) (hC : C) :
    ∃ a t, m s = .ok (a, t) ∧ Q a t := by
  obtain ⟨a, t, hrun⟩ := h.2 hC
  exact ⟨a, t, hrun, (h.1 a t hrun).2⟩

theorem pure {a : α} (h : Q a s) : Decides (ε := ε) (Pure.pure a) s True Q := by
  refine ⟨fun b t hrun => ?_, fun _ => ⟨a, s, rfl⟩⟩
  obtain ⟨rfl, rfl⟩ := pure_eq_ok.mp hrun
  exact ⟨trivial, h⟩

theorem throw (e : ε) : Decides (MonadExcept.throw e : StateT σ (Except ε) α) s False Q :=
  ⟨fun _ _ hrun => (throw_eq_ok.mp hrun).elim, False.elim⟩

/-- The second part is run from what the first one leaves. -/
theorem bind {m : StateT σ (Except ε) α} {f : α → StateT σ (Except ε) β} (hm : Decides m s C Q)
    (hf : ∀ a t, C → Q a t → Decides (f a) t D R) : Decides (m >>= f) s (C ∧ D) R := by
  constructor
  · intro b u hrun
    obtain ⟨a, t, hma, hfa⟩ := bind_eq_ok.mp hrun
    obtain ⟨hC, hQ⟩ := hm.1 a t hma
    obtain ⟨hD, hR⟩ := (hf a t hC hQ).1 b u hfa
    exact ⟨⟨hC, hD⟩, hR⟩
  · rintro ⟨hC, hD⟩
    obtain ⟨a, t, hma, hQ⟩ := hm.accepted hC
    obtain ⟨b, u, hfb⟩ := (hf a t hC hQ).2 hD
    exact ⟨b, u, bind_eq_ok.mpr ⟨a, t, hma, hfb⟩⟩

theorem mono {m : StateT σ (Except ε) α} {Q' : α → σ → Prop} (h : Decides m s C Q) (hC : C ↔ D)
    (hQ : ∀ a t, C → Q a t → Q' a t) : Decides m s D Q' := by
  refine ⟨fun a t hrun => ?_, fun hD => h.2 (hC.mpr hD)⟩
  obtain ⟨hC', hQa⟩ := h.1 a t hrun
  exact ⟨hC.mp hC', hQ a t hC' hQa⟩

theorem congr {m : StateT σ (Except ε) α} (h : Decides m s C Q) (hC : C ↔ D) : Decides m s D Q :=
  h.mono hC fun _ _ _ hQ => hQ

theorem of_run {m m' : StateT σ (Except ε) α} {s' : σ} (hrun : m s = m' s')
    (hm : Decides m' s' C Q) : Decides m s C Q := by
  unfold Decides
  rw [hrun]
  exact hm

/-- A first part that is accepted in any case. -/
theorem after {m : StateT σ (Except ε) α} {f : α → StateT σ (Except ε) β} {a : α}
    (hm : m s = .ok (a, t)) (hf : Decides (f a) t C R) : Decides (m >>= f) s C R :=
  of_run (bind_of_ok hm) hf

/-- A last part that only arranges the result. -/
theorem arrange {m : StateT σ (Except ε) α} (hm : Decides m s C Q) (g : α → β) :
    Decides (m >>= fun a => Pure.pure (g a)) s C fun b t => ∃ a, Q a t ∧ b = g a :=
  (hm.bind fun a _ _ hQ => pure ⟨a, hQ, rfl⟩).congr (iff_of_eq (and_true C))

end Decides

end Midend.Source
