import Mathlib.Data.Nat.Find
import Midend.Proofs.Action.Laws
import Midend.Scope.Checker

/-!
# What is visible where

A checker walks through a tree with a stack of scopes in its hands.  What it finds can be told
without any stack, by the spots of a tree: a reference is visible if its name was known before, or
if a declaration of the name stands before it and the innermost scope around the declaration is
around the reference as well.

Spots are ways from the root of a tree, and their order as lists is the order of the source: a tree
comes before its parts, and the parts come one after the other.

## Main definitions

* `Tree.parts`, `Tree.at?`: the parts of a tree, and the tree at a spot.
* `Tree.Encloses`, `Tree.Innermost`: scopes around a spot.
* `Tree.Visible`: a name is visible at a spot.
* `Tree.Exposes`: a name is declared in a tree outside all of its scopes.
* `Tree.FirstHidden`: the first reference that is not visible.
* `Walked`: what a walk through a tree finds, and what it leaves on the stack.

## Main results

* `Tree.visible_parts`: visibility in a tree by visibility in its parts.
* `walked_cons_ok`, `walked_scope`: walks through lists of trees and through scopes.
* `checks`: what a walk through a tree comes to.
* `check_iff_visible`: a walk succeeds just if all references are visible, and otherwise names the
  first one that is not; a check leaves the stack as it was.
-/

namespace Midend.Scope

/-- A spot in a tree: at each level, the number of the part to go into. -/
abbrev Spot := List Nat

namespace Tree

/-- Does the tree open a scope? -/
def opensScope : Tree → Bool
  | .block _ | .func _ _ => true
  | _ => false

/-- The parts of a tree in the order of the source.  The parameters of a function are declarations
in front of its body. -/
def parts : Tree → List Tree
  | .block stmts => stmts
  | .func params body => params.map .decl ++ [body]
  | .generic ts => ts
  | _ => []

/-- The tree at a spot. -/
def at? : Tree → Spot → Option Tree
  | t, [] => some t
  | t, i :: p => t.parts[i]?.bind fun u => u.at? p

/-- There is a scope at `s`, and `p` is inside. -/
structure Encloses (t : Tree) (s p : Spot) : Prop where
  /-- The tree at `s` opens a scope. -/
  opens : (t.at? s).any opensScope = true
  /-- The way to `p` leads through `s`. -/
  through : s <+: p
  /-- It does not end there. -/
  ne : s ≠ p

/-- `s` is the innermost scope around `p`. -/
def Innermost (t : Tree) (s p : Spot) : Prop :=
  t.Encloses s p ∧ ∀ s', t.Encloses s' p → s' <+: s

/-- A declaration of the name, perhaps as a parameter, stands before `q`, and if there is a scope
around it, the innermost one is around `q` as well. -/
def Declared (t : Tree) (x : String) (q : Spot) : Prop :=
  ∃ p, t.at? p = some (.decl x) ∧ p < q ∧ ∀ s, t.Innermost s p → t.Encloses s q

/-- The name is visible at `q` if it was known before or is declared for `q`. -/
def Visible (t : Tree) (known : Stack) (x : String) (q : Spot) : Prop :=
  known.lookup x = true ∨ t.Declared x q

/-- The name is declared, and not inside any scope of the tree. -/
def Exposes (t : Tree) (x : String) : Prop :=
  ∃ p, t.at? p = some (.decl x) ∧ ∀ s, ¬ t.Encloses s p

/-- All references are visible. -/
def AllVisible (t : Tree) (known : Stack) : Prop :=
  ∀ q x, t.at? q = some (.ref x) → t.Visible known x q

/-- The first reference that is not visible is the one at `q`, to `x`. -/
structure FirstHidden (t : Tree) (known : Stack) (q : Spot) (x : String) : Prop where
  /-- There is a reference. -/
  isRef : t.at? q = some (.ref x)
  /-- It is not visible. -/
  hidden : ¬ t.Visible known x q
  /-- All references before it are. -/
  first : ∀ p y, t.at? p = some (.ref y) → p < q → t.Visible known y p

/-! ### Scopes around a spot -/

variable {t u : Tree} {i j : Nat} {p q s : Spot} {x : String}

theorem at?_cons (t : Tree) (i : Nat) (p : Spot) :
    t.at? (i :: p) = t.parts[i]?.bind fun u => u.at? p := rfl

theorem not_encloses_nil : ¬ t.Encloses s [] := fun h => h.ne (List.prefix_nil.mp h.through)

theorem encloses_root : t.Encloses [] (i :: p) ↔ t.opensScope = true :=
  ⟨fun h => h.opens, fun h => ⟨h, List.nil_prefix, List.cons_ne_nil i p |>.symm⟩⟩

/-- Scopes in a part. -/
theorem encloses_cons (hi : t.parts[i]? = some u) :
    t.Encloses (j :: s) (i :: p) ↔ j = i ∧ u.Encloses s p := by
  constructor
  · rintro ⟨hopens, hthrough, hne⟩
    obtain ⟨rfl, hinside⟩ := List.cons_prefix_cons.mp hthrough
    rw [at?_cons, hi] at hopens
    exact ⟨rfl, hopens, hinside, fun h => hne (by rw [h])⟩
  · rintro ⟨rfl, hopens, hthrough, hne⟩
    refine ⟨?_, List.cons_prefix_cons.mpr ⟨rfl, hthrough⟩, fun h => hne (List.cons.inj h).2⟩
    rw [at?_cons, hi]
    exact hopens

/-- If there is a scope around a spot, there is an innermost one. -/
theorem exists_innermost (h : t.Encloses s p) : ∃ s', t.Innermost s' p ∧ s <+: s' := by
  classical
  -- The scopes around a spot are initial pieces of it, so the longest one is innermost.
  let around (n : Nat) : Prop := t.Encloses (p.take n) p
  let n := Nat.findGreatest around p.length
  have htake_length : ∀ {s'}, t.Encloses s' p → around s'.length := fun {s'} hs' => by
    show t.Encloses (p.take s'.length) p
    rwa [← List.prefix_iff_eq_take.mp hs'.through]
  have hlength : ∀ {s'}, t.Encloses s' p → s'.length ≤ n := fun hs' =>
    Nat.le_findGreatest hs'.through.length_le (htake_length hs')
  have hn : around n := Nat.findGreatest_spec h.through.length_le (htake_length h)
  have htake : ∀ {s'}, t.Encloses s' p → s' <+: p.take n := fun {s'} hs' => by
    refine List.prefix_of_prefix_length_le hs'.through (List.take_prefix n p) ?_
    rw [List.length_take]
    exact Nat.le_min.mpr ⟨hlength hs', hs'.through.length_le⟩
  exact ⟨p.take n, ⟨hn, fun s' => htake⟩, htake h⟩

/-- The innermost scope decides for all others. -/
theorem forall_innermost_iff :
    (∀ s, t.Innermost s p → t.Encloses s q) ↔ ∀ s, t.Encloses s p → t.Encloses s q := by
  constructor
  · intro h s hs
    obtain ⟨s', hs', hsub⟩ := exists_innermost hs
    have hq := h s' hs'
    refine ⟨hs.opens, hsub.trans hq.through, ?_⟩
    rintro rfl
    exact hq.ne (hq.through.eq_of_length_le hsub.length_le)
  · intro h s hs
    exact h s hs.1

/-! ### From a tree to its parts -/

/-- Two spots in the same part: the scopes around the part are around both. -/
theorem encloses_imp_same (hi : t.parts[i]? = some u) :
    (∀ s, t.Encloses s (i :: p) → t.Encloses s (i :: q)) ↔ ∀ s, u.Encloses s p → u.Encloses s q := by
  constructor
  · intro h s hs
    exact ((encloses_cons hi).mp (h (i :: s) ((encloses_cons hi).mpr ⟨rfl, hs⟩))).2
  · intro h s hs
    cases s with
    | nil => exact encloses_root.mpr (encloses_root.mp hs)
    | cons k s =>
      obtain ⟨rfl, hpart⟩ := (encloses_cons hi).mp hs
      exact (encloses_cons hi).mpr ⟨rfl, h s hpart⟩

/-- Two spots in different parts: no scope inside the one part is around the other. -/
theorem encloses_imp_other (hj : t.parts[j]? = some u) (hne : j ≠ i) :
    (∀ s, t.Encloses s (j :: p) → t.Encloses s (i :: q)) ↔ ∀ s, ¬ u.Encloses s p := by
  constructor
  · intro h s hs
    have hthrough := (h (j :: s) ((encloses_cons hj).mpr ⟨rfl, hs⟩)).through
    exact hne (List.cons_prefix_cons.mp hthrough).1
  · intro h s hs
    cases s with
    | nil => exact encloses_root.mpr (encloses_root.mp hs)
    | cons k s => exact absurd ((encloses_cons hj).mp hs).2 (h s)

/-- **Visibility comes from the part itself or from the parts before it,** whether or not the tree
opens a scope. -/
theorem declared_cons (hi : t.parts[i]? = some u) :
    t.Declared x (i :: q) ↔
      u.Declared x q ∨ ∃ j < i, ∃ w, t.parts[j]? = some w ∧ w.Exposes x := by
  simp only [Declared, forall_innermost_iff]
  constructor
  · rintro ⟨p, hp, hlt, hscopes⟩
    cases p with
    | nil =>
      -- A declaration has no parts.
      obtain rfl := Option.some.inj hp
      cases hi
    | cons j p =>
      rw [at?_cons, Option.bind_eq_some_iff] at hp
      obtain ⟨w, hj, hp⟩ := hp
      rcases List.cons_lt_cons_iff.mp hlt with hji | ⟨rfl, hpq⟩
      · exact .inr ⟨j, hji, w, hj, p, hp, (encloses_imp_other hj (Nat.ne_of_lt hji)).mp hscopes⟩
      · obtain rfl := Option.some.inj (hi.symm.trans hj)
        exact .inl ⟨p, hp, hpq, (encloses_imp_same hi).mp hscopes⟩
  · rintro (⟨p, hp, hlt, hscopes⟩ | ⟨j, hji, w, hj, p, hp, hbare⟩)
    · refine ⟨i :: p, ?_, List.cons_lt_cons_iff.mpr (.inr ⟨rfl, hlt⟩), (encloses_imp_same hi).mpr hscopes⟩
      rw [at?_cons, hi]
      exact hp
    · refine ⟨j :: p, ?_, List.cons_lt_cons_iff.mpr (.inl hji),
        (encloses_imp_other hj (Nat.ne_of_lt hji)).mpr hbare⟩
      rw [at?_cons, hj]
      exact hp

/-- A tree that opens a scope exposes nothing. -/
theorem not_exposes_of_opensScope (h : t.opensScope = true) : ¬ t.Exposes x := by
  rintro ⟨p, hp, hbare⟩
  cases p with
  | nil =>
    obtain rfl := Option.some.inj hp
    cases h
  | cons i p => exact hbare [] (encloses_root.mpr h)

variable {ts : List Tree}

/-- Trees one after the other expose what each of them exposes. -/
theorem exposes_generic : (generic ts).Exposes x ↔ ∃ u ∈ ts, u.Exposes x := by
  constructor
  · rintro ⟨p, hp, hbare⟩
    cases p with
    | nil => cases hp
    | cons i p =>
      rw [at?_cons, Option.bind_eq_some_iff] at hp
      obtain ⟨u, hi, hp⟩ := hp
      refine ⟨u, List.mem_of_getElem? hi, p, hp, fun s hs => ?_⟩
      exact hbare (i :: s) ((encloses_cons hi).mpr ⟨rfl, hs⟩)
  · rintro ⟨u, hu, p, hp, hbare⟩
    obtain ⟨i, hi⟩ := List.getElem?_of_mem hu
    refine ⟨i :: p, ?_, fun s hs => ?_⟩
    · rw [at?_cons]
      exact Option.bind_eq_some_iff.mpr ⟨u, hi, hp⟩
    · cases s with
      | nil => cases hs.opens
      | cons j s => exact hbare s ((encloses_cons (t := generic ts) hi).mp hs).2

/-- The first tree of a list sees nothing of the others. -/
theorem visible_head {known : Stack} :
    (generic (t :: ts)).Visible known x (0 :: q) ↔ t.Visible known x q := by
  have hhead : (generic (t :: ts)).parts[0]? = some t := rfl
  rw [Visible, Visible, declared_cons hhead]
  simp

/-- The others see what the first one exposes. -/
theorem visible_tail {known known' : Stack} (hi : ts[i]? = some u)
    (hknown : ∀ x, known'.lookup x = true ↔ known.lookup x = true ∨ t.Exposes x) :
    (generic (t :: ts)).Visible known x ((i + 1) :: q) ↔ (generic ts).Visible known' x (i :: q) := by
  have hi' : (generic (t :: ts)).parts[i + 1]? = some u := hi
  have hbefore : (∃ j < i + 1, ∃ w, (t :: ts)[j]? = some w ∧ w.Exposes x) ↔
      t.Exposes x ∨ ∃ j < i, ∃ w, ts[j]? = some w ∧ w.Exposes x := by
    constructor
    · rintro ⟨_ | j, hj, w, hw, hx⟩
      · obtain rfl := Option.some.inj hw
        exact .inl hx
      · exact .inr ⟨j, Nat.lt_of_succ_lt_succ hj, w, hw, hx⟩
    · rintro (hx | ⟨j, hj, w, hw, hx⟩)
      · exact ⟨0, Nat.succ_pos i, t, rfl, hx⟩
      · exact ⟨j + 1, Nat.succ_lt_succ hj, w, hw, hx⟩
  rw [Visible, Visible, declared_cons hi', declared_cons (t := generic ts) hi, hknown]
  simp only [parts, hbefore]
  rw [or_assoc, or_left_comm (a := t.Exposes x)]

/-- In a scope, as much is visible as in its parts one after the other. -/
theorem visible_parts {known known' : Stack} (hi : t.parts[i]? = some u)
    (hknown : ∀ x, known'.lookup x = known.lookup x) :
    t.Visible known x (i :: q) ↔ (generic t.parts).Visible known' x (i :: q) := by
  rw [Visible, Visible, declared_cons hi, declared_cons (t := generic t.parts) hi, hknown]
  rfl

/-- What holds of a tree as soon as it holds of its parts holds of all trees. -/
theorem parts_induction {P : Tree → Prop} (h : ∀ t, (∀ u ∈ t.parts, P u) → P t) (t : Tree) : P t :=
  h t fun u _hu => parts_induction h u
termination_by sizeOf t
decreasing_by
  cases t with
  | block stmts =>
    have := List.sizeOf_lt_of_mem (show u ∈ stmts from _hu)
    simp only [block.sizeOf_spec]
    omega
  | func params body =>
    rcases List.mem_append.mp (show u ∈ params.map decl ++ [body] from _hu) with hu | hu
    · obtain ⟨n, hn, rfl⟩ := List.mem_map.mp hu
      have := List.sizeOf_lt_of_mem hn
      simp only [func.sizeOf_spec, decl.sizeOf_spec]
      omega
    · obtain rfl := List.mem_singleton.mp hu
      simp only [func.sizeOf_spec]
      omega
  | generic ts =>
    have := List.sizeOf_lt_of_mem (show u ∈ ts from _hu)
    simp only [generic.sizeOf_spec]
    omega
  | _ => cases _hu

end Tree

/-! ### Walks -/

namespace Checking

variable {α : Type} {m : Checking α} {s s' : Stack}

theorem run_tryCatch_ok {handler : CheckError → Checking α} {a : α} (h : m.run s = (.ok a, s')) :
    (tryCatch m handler).run s = (.ok a, s') := by
  have hm : m s = _ := h
  simp only [tryCatch, tryCatchThe, MonadExceptOf.tryCatch, ExceptT.tryCatch, ExceptT.run_mk, bind,
    StateT.bind, hm]
  rfl

theorem run_tryCatch_error {handler : CheckError → Checking α} {e : CheckError}
    (h : m.run s = (.error e, s')) : (tryCatch m handler).run s = (handler e).run s' := by
  have hm : m s = _ := h
  simp only [tryCatch, tryCatchThe, MonadExceptOf.tryCatch, ExceptT.tryCatch, ExceptT.run_mk, bind,
    StateT.bind, hm]
  rfl

theorem run_refer (name : String) :
    (refer name).run s = (if s.lookup name = true then .ok () else .error (.undeclared name), s) := by
  cases h : s.lookup name with
  | true =>
    show (if !s.lookup name then throw (.undeclared name) else pure () : Checking Unit).run s = _
    rw [h]
    rfl
  | false =>
    show (if !s.lookup name then throw (.undeclared name) else pure () : Checking Unit).run s = _
    rw [h]
    rfl

/-- A scope is closed however the walk inside it ends. -/
theorem run_inScope {walk : Checking Unit} {r : Except CheckError Unit} {f : Frame}
    (h : walk.run s.push = (r, ⟨f :: s.frames⟩)) : (inScope walk).run s = (r, s) := by
  have henter : enter.run s = (.ok (), s.push) := rfl
  have hleave : leave.run ⟨f :: s.frames⟩ = (.ok (), s) := rfl
  refine (Act.bind_of_ok henter).trans ?_
  cases r with
  | ok => exact (Act.bind_of_ok (run_tryCatch_ok h)).trans hleave
  | error e => exact Act.bind_of_error ((run_tryCatch_error h).trans (Act.bind_of_ok hleave))

end Checking

/-- A walk through a tree began with the innermost frame `f` and the frames `outer` around it, and
ended in `r` and with the innermost frame `f'`. -/
structure Walked (t : Tree) (f : Frame) (outer : List Frame) (r : Except CheckError Unit)
    (f' : Frame) : Prop where
  /-- If it went through, all references are visible. -/
  passed : r = .ok () → t.AllVisible ⟨f :: outer⟩
  /-- If not, it stopped at the first one that is not. -/
  stopped : r ≠ .ok () → ∃ q x, t.FirstHidden ⟨f :: outer⟩ q x ∧ r = .error (.undeclared x)
  /-- No name was lost. -/
  kept : ∀ x ∈ f, x ∈ f'
  /-- Only names that the tree exposes were gained. -/
  gained : ∀ x ∈ f', x ∈ f ∨ t.Exposes x
  /-- If it went through, these are all names that the tree exposes. -/
  declared : r = .ok () → ∀ x, t.Exposes x → x ∈ f'

section Walks

open Tree

variable {t : Tree} {ts : List Tree} {f f₁ f₂ : Frame} {outer : List Frame}
  {r : Except CheckError Unit} {e : CheckError}

theorem Stack.lookup_cons (f : Frame) (outer : List Frame) (x : String) :
    (⟨f :: outer⟩ : Stack).lookup x = true ↔ x ∈ f ∨ (⟨outer⟩ : Stack).lookup x = true := by
  simp [Stack.lookup]

/-- What can be seen after a walk that went through. -/
theorem Walked.lookup_iff (h : Walked t f outer (.ok ()) f₁) (x : String) :
    (⟨f₁ :: outer⟩ : Stack).lookup x = true ↔
      (⟨f :: outer⟩ : Stack).lookup x = true ∨ t.Exposes x := by
  rw [Stack.lookup_cons, Stack.lookup_cons]
  constructor
  · rintro (hx | hx)
    · rcases h.gained x hx with hx | hx
      · exact .inl (.inl hx)
      · exact .inr hx
    · exact .inl (.inr hx)
  · rintro ((hx | hx) | hx)
    · exact .inl (h.kept x hx)
    · exact .inr hx
    · exact .inl (h.declared rfl x hx)

theorem walked_nil : Walked (generic []) f outer (.ok ()) f where
  passed _ q x hq := by
    cases q <;> cases hq
  stopped hne := absurd rfl hne
  kept _ hx := hx
  gained _ hx := .inl hx
  declared _ x hx := by
    obtain ⟨u, hu, -⟩ := exposes_generic.mp hx
    cases hu

/-- If the walk stops in the first tree of a list, it stops in the list. -/
theorem walked_cons_error (h : Walked t f outer (.error e) f₁) :
    Walked (generic (t :: ts)) f outer (.error e) f₁ where
  passed herr := by cases herr
  stopped _ := by
    obtain ⟨q, x, ⟨hq, hhidden, hfirst⟩, hr⟩ := h.stopped (by simp)
    refine ⟨0 :: q, x, ⟨hq, mt visible_head.mp hhidden, fun p y hp hlt => ?_⟩, hr⟩
    -- Only spots in the first tree come before.
    cases p with
    | nil => cases hp
    | cons i p =>
      rcases List.cons_lt_cons_iff.mp hlt with hi | ⟨rfl, hpq⟩
      · exact absurd hi (Nat.not_lt_zero i)
      · exact visible_head.mpr (hfirst p y hp hpq)
  kept := h.kept
  gained x hx := by
    rw [exposes_generic]
    exact (h.gained x hx).imp_right fun hx => ⟨t, List.mem_cons_self, hx⟩
  declared herr := by cases herr

/-- If the walk goes through the first tree of a list, the rest is walked through with what that tree
exposes. -/
theorem walked_cons_ok (h : Walked t f outer (.ok ()) f₁) (hts : Walked (generic ts) f₁ outer r f₂) :
    Walked (generic (t :: ts)) f outer r f₂ := by
  have htail : ∀ {i q x y}, (generic ts).at? (i :: q) = some y →
      ((generic (t :: ts)).Visible ⟨f :: outer⟩ x ((i + 1) :: q) ↔
        (generic ts).Visible ⟨f₁ :: outer⟩ x (i :: q)) := fun hq => by
    rw [at?_cons, Option.bind_eq_some_iff] at hq
    obtain ⟨u, hi, -⟩ := hq
    exact visible_tail hi h.lookup_iff
  have hexposes : ∀ {x}, (generic (t :: ts)).Exposes x ↔ t.Exposes x ∨ (generic ts).Exposes x := by
    simp [exposes_generic]
  refine ⟨fun hr q x hq => ?_, fun hr => ?_, fun x hx => hts.kept x (h.kept x hx), fun x hx => ?_,
    fun hr x hx => ?_⟩
  · cases q with
    | nil => cases hq
    | cons i q =>
      cases i with
      | zero => exact visible_head.mpr (h.passed rfl q x hq)
      | succ i => exact (htail hq).mpr (hts.passed hr (i :: q) x hq)
  · obtain ⟨q, x, ⟨hq, hhidden, hfirst⟩, hr⟩ := hts.stopped hr
    cases q with
    | nil => cases hq
    | cons i q =>
      refine ⟨(i + 1) :: q, x, ⟨hq, mt (htail hq).mp hhidden, fun p y hp hlt => ?_⟩, hr⟩
      cases p with
      | nil => cases hp
      | cons j p =>
        cases j with
        | zero => exact visible_head.mpr (h.passed rfl p y hp)
        | succ j =>
          refine (htail hp).mpr (hfirst (j :: p) y hp ?_)
          rw [List.cons_lt_cons_iff] at hlt ⊢
          exact hlt.imp Nat.lt_of_succ_lt_succ (And.imp_left Nat.succ.inj)
  · rw [hexposes]
    rcases hts.gained x hx with hx | hx
    · exact (h.gained x hx).imp_right .inl
    · exact .inr (.inr hx)
  · rcases hexposes.mp hx with hx | hx
    · exact hts.kept x (h.declared rfl x hx)
    · exact hts.declared hr x hx

/-- A walk through a scope is one through its parts, with a frame of its own. -/
theorem walked_scope (hopens : t.opensScope = true)
    (h : Walked (generic t.parts) [] (f :: outer) r f₁) : Walked t f outer r f := by
  have hroot : ∀ {x}, t.at? [] ≠ some (.ref x) := fun hx => by
    obtain rfl := Option.some.inj hx
    cases hopens
  have hpart : ∀ {i q x y}, t.at? (i :: q) = some y → (t.Visible ⟨f :: outer⟩ x (i :: q) ↔
      (generic t.parts).Visible ⟨[] :: f :: outer⟩ x (i :: q)) := fun hq => by
    rw [at?_cons, Option.bind_eq_some_iff] at hq
    obtain ⟨u, hi, -⟩ := hq
    exact visible_parts hi fun _ => rfl
  refine ⟨fun hr q x hq => ?_, fun hr => ?_, fun _ hx => hx, fun _ hx => .inl hx,
    fun _ x hx => absurd hx (not_exposes_of_opensScope hopens)⟩
  · cases q with
    | nil => exact absurd hq hroot
    | cons i q => exact (hpart hq).mpr (h.passed hr (i :: q) x hq)
  · obtain ⟨q, x, ⟨hq, hhidden, hfirst⟩, hr⟩ := h.stopped hr
    cases q with
    | nil => cases hq
    | cons i q =>
      refine ⟨i :: q, x, ⟨hq, mt (hpart hq).mp hhidden, fun p y hp hlt => ?_⟩, hr⟩
      cases p with
      | nil => exact absurd hp hroot
      | cons j p => exact (hpart hp).mpr (hfirst (j :: p) y hp hlt)

/-! ### Leaves -/

/-- A leaf has no spot but the root. -/
theorem eq_nil_of_at? {u : Tree} {q : Spot} (ht : t.parts = []) (h : t.at? q = some u) : q = [] := by
  cases q with
  | nil => rfl
  | cons i q =>
    rw [at?_cons, ht] at h
    cases h

theorem walked_empty : Walked .empty f outer (.ok ()) f where
  passed _ q x hq := by
    obtain rfl := eq_nil_of_at? rfl hq
    cases hq
  stopped hne := absurd rfl hne
  kept _ hx := hx
  gained _ hx := .inl hx
  declared := by
    rintro - x ⟨p, hp, -⟩
    obtain rfl := eq_nil_of_at? rfl hp
    cases hp

theorem walked_decl (n : String) : Walked (.decl n) f outer (.ok ()) (f.insert n) where
  passed _ q x hq := by
    obtain rfl := eq_nil_of_at? rfl hq
    cases hq
  stopped hne := absurd rfl hne
  kept x hx := List.mem_insert_iff.mpr (.inr hx)
  gained x hx := by
    rcases List.mem_insert_iff.mp hx with rfl | hx
    · exact .inr ⟨[], rfl, fun _ => not_encloses_nil⟩
    · exact .inl hx
  declared := by
    rintro - x ⟨p, hp, -⟩
    obtain rfl := eq_nil_of_at? rfl hp
    cases hp
    exact List.mem_insert_iff.mpr (.inl rfl)

theorem walked_ref (n : String) : Walked (.ref n) f outer
    (if (⟨f :: outer⟩ : Stack).lookup n = true then .ok () else .error (.undeclared n)) f where
  passed hr q x hq := by
    obtain rfl := eq_nil_of_at? rfl hq
    cases hq
    refine .inl (Classical.byContradiction fun hno => ?_)
    rw [if_neg hno] at hr
    cases hr
  stopped hr := by
    have hno : ¬ (⟨f :: outer⟩ : Stack).lookup n = true := fun hyes => hr (if_pos hyes)
    refine ⟨[], n, ⟨rfl, ?_, fun p _ _ hlt => absurd hlt (List.not_lt_nil p)⟩, if_neg hno⟩
    rintro (hyes | ⟨p, -, hlt, -⟩)
    · exact hno hyes
    · exact List.not_lt_nil p hlt
  kept _ hx := hx
  gained _ hx := .inl hx
  declared := by
    rintro - x ⟨p, hp, -⟩
    obtain rfl := eq_nil_of_at? rfl hp
    cases hp

end Walks

/-! ### Trees -/

/-- Whatever frames are open, walking through the tree changes only the innermost one and comes to
what there is to be found. -/
def Tree.Checks (t : Tree) : Prop :=
  ∀ (f : Frame) (outer : List Frame), ∃ r f',
    t.check.run ⟨f :: outer⟩ = (r, ⟨f' :: outer⟩) ∧ Walked t f outer r f'

/-- **Walking through trees one after the other** comes to what there is to be found in the list. -/
theorem walked_checkList {ts : List Tree} (hts : ∀ t ∈ ts, t.Checks) (f : Frame)
    (outer : List Frame) : ∃ r f', (checkList ts).run ⟨f :: outer⟩ = (r, ⟨f' :: outer⟩) ∧
      Walked (.generic ts) f outer r f' := by
  induction ts generalizing f with
  | nil => exact ⟨.ok (), f, rfl, walked_nil⟩
  | cons t ts ih =>
    rw [List.forall_mem_cons] at hts
    obtain ⟨r, f₁, hrun, hwalked⟩ := hts.1 f outer
    rw [checkList]
    cases r with
    | error e => exact ⟨.error e, f₁, Act.bind_of_error hrun, walked_cons_error hwalked⟩
    | ok =>
      obtain ⟨r, f₂, hrest, hwalked'⟩ := ih hts.2 f₁
      exact ⟨r, f₂, (Act.bind_of_ok hrun).trans hrest, walked_cons_ok hwalked hwalked'⟩

/-- Walking through a scope comes to what there is to be found in its parts, and leaves no trace. -/
theorem checks_scope {t : Tree} (hopens : t.opensScope = true)
    (hcheck : t.check = Checking.inScope (checkList t.parts)) (hparts : ∀ u ∈ t.parts, u.Checks) :
    t.Checks := by
  intro f outer
  obtain ⟨r, f', hrun, hwalked⟩ := walked_checkList hparts [] (f :: outer)
  refine ⟨r, f, ?_, walked_scope hopens hwalked⟩
  rw [hcheck]
  exact Checking.run_inScope (s := ⟨f :: outer⟩) hrun

/-- A function declares its parameters and walks through its body, as through its parts. -/
theorem check_func (params : List String) (body : Tree) :
    (Tree.func params body).check = Checking.inScope (checkList (Tree.func params body).parts) := by
  have hbody : checkList [body] = body.check := by
    simp [checkList]
  have hparts : checkList (params.map .decl ++ [body]) = (do
      Checking.declareAll params
      body.check) := by
    induction params with
    | nil => simpa [Checking.declareAll] using hbody
    | cons n params ih => simp [checkList, Tree.check, Checking.declareAll, ih]
  rw [Tree.parts, hparts, Tree.check]

/-- **A walk through a tree** comes to what there is to be found. -/
theorem checks (t : Tree) : t.Checks := by
  induction t using Tree.parts_induction with
  | h t ih =>
    cases t with
    | empty => exact fun f outer => ⟨_, f, rfl, walked_empty⟩
    | decl n => exact fun f outer => ⟨_, f.insert n, rfl, walked_decl n⟩
    | ref n => exact fun f outer => ⟨_, f, Checking.run_refer n, walked_ref n⟩
    | block stmts => exact checks_scope rfl (by rw [Tree.check, Tree.parts]) ih
    | func params body => exact checks_scope rfl (check_func params body) ih
    | generic ts =>
      intro f outer
      rw [Tree.check]
      exact walked_checkList ih f outer

/-- **Checking finds out what is visible.**  Let a tree be walked through with any frames open, at least
one.  The walk goes through just if every reference is visible: its name is declared in one of the
frames, or by a declaration or a parameter that stands before it, such that the innermost scope around
the declaration is around the reference as well.  Otherwise the walk stops at the first reference that
is not visible and names it.  In both cases the frames around the innermost one are as before, and the
innermost one has gained only names that are declared in the tree outside all of its scopes, all of them
if the walk went through.  So a check, which is a walk in a frame of its own, leaves all frames as they
were. -/
theorem check_iff_visible (t : Tree) (f : Frame) (outer : List Frame) :
    let start : Stack := ⟨f :: outer⟩
    let walk := t.check.run start
    (walk.1 = .ok () ↔ t.AllVisible start) ∧
    (walk.1 ≠ .ok () → ∃ q x, t.FirstHidden start q x ∧ walk.1 = .error (.undeclared x)) ∧
    (∃ f', walk.2 = ⟨f' :: outer⟩ ∧ (∀ x ∈ f, x ∈ f') ∧ (∀ x ∈ f', x ∈ f ∨ t.Exposes x) ∧
      (walk.1 = .ok () → ∀ x, t.Exposes x → x ∈ f')) ∧
    ∀ s : Stack, (check t).run s = ((t.check.run s.push).1, s) := by
  intro start walk
  obtain ⟨r, f', hrun, hwalked⟩ := checks t f outer
  have hwalk : walk = (r, ⟨f' :: outer⟩) := hrun
  rw [hwalk]
  refine ⟨⟨hwalked.passed, fun hall => ?_⟩, hwalked.stopped,
    ⟨f', rfl, hwalked.kept, hwalked.gained, hwalked.declared⟩, fun s => ?_⟩
  · refine Classical.byContradiction fun hr => ?_
    obtain ⟨q, x, hfirst, -⟩ := hwalked.stopped hr
    exact hfirst.hidden (hall q x hfirst.isRef)
  · obtain ⟨r, f', hrun, -⟩ := checks t [] s.frames
    have hpush : t.check.run s.push = (r, ⟨f' :: s.frames⟩) := hrun
    rw [hpush]
    exact Checking.run_inScope hpush

/-- The parameter is visible in the function and not behind it. -/
example : offender? (.generic [.func ["y"] (.block [.ref "y"]), .ref "y"]) {} = some "y" := by decide

end Midend.Scope
