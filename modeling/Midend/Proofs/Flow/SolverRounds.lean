import Midend.Proofs.Action.Laws

/-!
# The rounds of the data-flow solver

The solver takes blocks from a stack until it is empty.  What it does is told by what one round
does: a property of the sets found so far, the stack and the state that every round keeps holds
when the solver is done.

## Main definitions

* `solveWithin`, `solveInRounds`: the solver with a bound on its rounds, which can be evaluated.

## Main results

* `ensures_solveFrom`: the rule for the solver.
* `succeeds_solve_of_inRounds`: the solver does what it does within enough rounds.
-/

namespace Midend.Flow

variable {σ S : Type}

/-! ### Sets by block -/

namespace BlockMap

theorem get?_fill (blocks : List BlockRef) (s : S) (b : BlockRef) :
    (fill blocks s).get? b = if b ∈ blocks then some s else none := by
  induction blocks with
  | nil => rfl
  | cons c blocks ih =>
    unfold fill get? at ih ⊢
    rw [List.map_cons, List.lookup_cons]
    by_cases hbc : b = c
    · simp [hbc]
    · have hbc' : (b == c) = false := by simpa using hbc
      simp only [hbc', List.mem_cons, hbc, false_or]
      exact ih

theorem get?_set {m : BlockMap S} {b : BlockRef} {old : S} (h : m.get? b = some old) (s : S)
    (c : BlockRef) : (m.set b s).get? c = if b = c then some s else m.get? c := by
  induction m with
  | nil => cases h
  | cons e rest ih =>
    obtain ⟨d, t⟩ := e
    unfold get? at h ih ⊢
    rw [set]
    by_cases hbd : b = d
    · subst hbd
      rw [if_pos rfl, List.lookup_cons, List.lookup_cons]
      by_cases hbc : b = c
      · subst hbc
        simp
      · have hcb : (c == b) = false := by simpa using Ne.symm hbc
        rw [hcb, if_neg hbc]
    · have hbd' : (b == d) = false := by simpa using hbd
      rw [List.lookup_cons, hbd'] at h
      rw [if_neg hbd, List.lookup_cons, List.lookup_cons, ih h]
      by_cases hcd : c = d
      · subst hcd
        simp [hbd]
      · have hcd' : (c == d) = false := by simpa using hcd
        rw [hcd']

end BlockMap

/-! ### Rounds -/

/-- What is known after a visit of a block that changed nothing. -/
def Solution.revisited (sol : Solution S) (b : BlockRef) (inn gen kill : S) : Solution S :=
  { sol with
    ins := sol.ins.set b inn, gens := sol.gens.set b gen, kills := sol.kills.set b kill,
    pops := sol.pops + 1 }

/-- What is known after a visit of a block that changed what leaves it. -/
def Solution.changed (sol : Solution S) (b : BlockRef) (inn gen kill out : S) : Solution S :=
  { sol.revisited b inn gen kill with
    outs := sol.outs.set b out, changes := sol.changes + 1 }

/-- One round of the solver: the block on top of the stack is visited, and `next` goes on from there. -/
def visitTop (prob : Problem σ S) (p : Program) (g : Graph EdgeList) (onChange : BlockRef → S → Act σ Unit)
    (next : Solution S → List BlockRef → Act σ (Solution S)) (sol : Solution S) (b : BlockRef)
    (stack : List BlockRef) : Act σ (Solution S) :=
  match sol.outs.get? b with
  | none => next sol stack
  | some old => do
    let inn := entering prob g sol.outs b
    let gen ← prob.gen b
    let kill ← prob.kill b gen
    let out := prob.transfer inn gen kill
    if prob.equal out old = true then next (sol.revisited b inn gen kill) stack
    else if prob.includes out old = true then do
      onChange b out
      next (sol.changed b inn gen kill out) (((prob.program (← get)).successors b).reverse ++ stack)
    else throw (.shrinking (p.block b).name)

variable {prob : Problem σ S} {p : Program} {f : FuncId} {g : Graph EdgeList}
  {onChange : BlockRef → S → Act σ Unit} {next next' : Solution S → List BlockRef → Act σ (Solution S)}
  {sol : Solution S} {b : BlockRef} {stack : List BlockRef} {Q : Solution S → σ → Prop} {rounds : Nat}

/-- A round depends on what goes on from there, and there alone. -/
theorem visitTop_congr
    (hskip : sol.outs.get? b = none → next sol stack = next' sol stack)
    (hsame : ∀ inn gen kill,
      next (sol.revisited b inn gen kill) stack = next' (sol.revisited b inn gen kill) stack)
    (hgrown : ∀ old inn gen kill out s, sol.outs.get? b = some old → prob.equal out old = false →
      prob.includes out old = true →
      next (sol.changed b inn gen kill out) (((prob.program s).successors b).reverse ++ stack) =
        next' (sol.changed b inn gen kill out) (((prob.program s).successors b).reverse ++ stack)) :
    visitTop prob p g onChange next sol b stack = visitTop prob p g onChange next' sol b stack := by
  unfold visitTop
  split
  · next hold => exact hskip hold
  · next old hold =>
    refine bind_congr fun gen => bind_congr fun kill => ?_
    dsimp only
    split
    · exact hsame _ gen kill
    · next heq =>
      split
      · next hinc =>
        refine bind_congr fun _ => bind_congr fun s => ?_
        exact hgrown old _ gen kill _ s hold (Bool.eq_false_iff.mpr heq) hinc
      · rfl

/-- If what goes on from there ensures as much, so does the round. -/
theorem ensures_visitTop_mono {E : Fault → σ → Prop} {s : σ}
    (h : (visitTop prob p g onChange next sol b stack).Ensures s Q E)
    (hnext : ∀ sol stack s, (next sol stack).Ensures s Q E → (next' sol stack).Ensures s Q E) :
    (visitTop prob p g onChange next' sol b stack).Ensures s Q E := by
  unfold visitTop at h ⊢
  cases hold : sol.outs.get? b with
  | none =>
    rw [hold] at h
    exact hnext sol stack s h
  | some old =>
    simp only [hold, Act.ensures_bind] at h ⊢
    refine h.mono (fun gen s₁ hkill => hkill.mono (fun kill s₂ hdone => ?_) fun _ _ => id) fun _ _ => id
    split at hdone
    · next heq =>
      rw [if_pos heq]
      exact hnext _ stack s₂ hdone
    · next heq =>
      rw [if_neg heq]
      split at hdone
      · next hinc =>
        rw [if_pos hinc, Act.ensures_bind]
        rw [Act.ensures_bind] at hdone
        exact hdone.mono (fun _ s₃ hrest => hnext _ _ s₃ hrest) fun _ _ => id
      · next hinc =>
        rw [if_neg hinc]
        exact hdone

/-- A round in which it is known what the block adds and removes. -/
theorem visitTop_run {s₀ s₁ s₂ : σ} {old gen kill : S}
    (hold : sol.outs.get? b = some old) (hgen : prob.gen b s₀ = (.ok gen, s₁))
    (hkill : prob.kill b gen s₁ = (.ok kill, s₂)) :
    let inn := entering prob g sol.outs b
    let out := prob.transfer inn gen kill
    visitTop prob p g onChange next sol b stack s₀ =
      (if prob.equal out old = true then next (sol.revisited b inn gen kill) stack
      else if prob.includes out old = true then do
        onChange b out
        next (sol.changed b inn gen kill out) (((prob.program (← get)).successors b).reverse ++ stack)
      else throw (.shrinking (p.block b).name)) s₂ := by
  simp only [visitTop, hold]
  rw [Act.bind_of_ok hgen, Act.bind_of_ok hkill]

variable (prob p g onChange)

/-- The solver takes one round after another. -/
theorem solveFrom_cons (sol : Solution S) (b : BlockRef) (stack : List BlockRef) :
    solveFrom prob p g onChange sol (b :: stack) =
      visitTop prob p g onChange (solveFrom prob p g onChange) sol b stack := by
  rw [solveFrom]
  split
  · next hold => simp only [visitTop, hold]
  · next old hold =>
    simp only [visitTop, hold, dite_eq_ite]
    rfl

/-- **The rule for the solver.**  `J` is kept by every round: when a block is passed over because
nothing is known about it, when its visit changes nothing, and when it changes what leaves the
block.  A visit may also end in a fault, of which `E` must hold. -/
theorem ensures_solveFrom (J : Solution S → List BlockRef → σ → Prop) {E : Fault → σ → Prop}
    (hskip : ∀ sol b stack s, sol.outs.get? b = none → J sol (b :: stack) s → J sol stack s)
    (hvisit : ∀ sol b stack s old, sol.outs.get? b = some old → J sol (b :: stack) s →
      (prob.gen b).Ensures s (fun gen s₁ => (prob.kill b gen).Ensures s₁ (fun kill s₂ =>
        let inn := entering prob g sol.outs b
        let out := prob.transfer inn gen kill
        (prob.equal out old = true → J (sol.revisited b inn gen kill) stack s₂) ∧
        (prob.equal out old = false → prob.includes out old = true →
          (onChange b out).Ensures s₂ (fun _ s₃ => J (sol.changed b inn gen kill out)
            (((prob.program s₃).successors b).reverse ++ stack) s₃) E) ∧
        (prob.equal out old = false → prob.includes out old = false →
          E (.shrinking (p.block b).name) s₂)) E) E)
    (sol : Solution S) (stack : List BlockRef) (s : σ) (h : J sol stack s) :
    (solveFrom prob p g onChange sol stack).Ensures s (fun sol' s' => J sol' [] s') E := by
  induction sol, stack using solveFrom.induct prob g generalizing s with
  | case1 sol =>
    rw [solveFrom]
    exact h
  | case2 sol b stack hold ih =>
    rw [solveFrom_cons]
    simp only [visitTop, hold]
    exact ih s (hskip sol b stack s hold h)
  | case3 sol b stack old hold inn ihEqual ihChange =>
    rw [solveFrom_cons]
    simp only [visitTop, hold]
    rw [Act.ensures_bind]
    refine (hvisit sol b stack s old hold h).mono (fun gen s₁ hkill => ?_) fun _ _ => id
    rw [Act.ensures_bind]
    refine hkill.mono (fun kill s₂ hdone => ?_) fun _ _ => id
    obtain ⟨hsame, hgrown, hshrunk⟩ := hdone
    split
    · next heq => exact ihEqual gen kill s₂ (hsame heq)
    · next heq =>
      have heq' := Bool.eq_false_iff.mpr heq
      split
      · next hinc =>
        rw [Act.ensures_bind]
        refine (hgrown heq' hinc).mono (fun _ s₃ hJ => ?_) fun _ _ => id
        exact ihChange gen kill heq hinc s₃ s₃ hJ
      · next hinc => exact hshrunk heq' (Bool.eq_false_iff.mpr hinc)

/-! ### A bounded number of rounds -/

/-- Works off a stack of blocks in at most the given number of rounds.  This form can be evaluated. -/
def solveWithin (prob : Problem σ S) (p : Program) (g : Graph EdgeList)
    (onChange : BlockRef → S → Act σ Unit) : Nat → Solution S → List BlockRef → Act σ (Solution S)
  | _, sol, [] => pure sol
  | 0, _, _ :: _ => throw .unfinished
  | rounds + 1, sol, b :: stack =>
    visitTop prob p g onChange (solveWithin prob p g onChange rounds) sol b stack

/-- If the rounds are enough, the solver does the same. -/
theorem succeeds_solveFrom_of_within (rounds : Nat) (sol : Solution S) (stack : List BlockRef) (s : σ)
    (h : (solveWithin prob p g onChange rounds sol stack).Succeeds s Q) :
    (solveFrom prob p g onChange sol stack).Succeeds s Q := by
  induction rounds generalizing sol stack s with
  | zero =>
    cases stack with
    | nil =>
      rw [solveFrom]
      exact h
    | cons b stack => exact h.elim
  | succ rounds ih =>
    cases stack with
    | nil =>
      rw [solveFrom]
      exact h
    | cons b stack =>
      rw [solveWithin] at h
      rw [solveFrom_cons]
      exact ensures_visitTop_mono h ih

/-- Solves a problem for a function in at most the given number of rounds. -/
def solveInRounds (prob : Problem σ S) (p : Program) (f : FuncId)
    (onChange : BlockRef → S → Act σ Unit) (rounds : Nat) : Act σ (Solution S) := do
  let g ← Act.ofExcept (Graph.ofFunc p f)
  solveWithin prob p g onChange rounds (.start prob p (g.unreachable p)) (p.blockRefs f).reverse

variable {prob p onChange}

theorem succeeds_solve_of_inRounds {s : σ}
    (h : (solveInRounds prob p f onChange rounds).Succeeds s Q) : (solve prob p f onChange).Succeeds s Q := by
  unfold solveInRounds at h
  unfold solve
  rw [Act.Succeeds, Act.ensures_bind] at h ⊢
  exact h.mono (fun g t ht => succeeds_solveFrom_of_within prob p g onChange rounds _ _ t ht)
    fun _ _ => id

/-- What the solver yields can be read off a run with a bound. -/
theorem of_solveInRounds {s t : σ} {α : Type}
    {view : Solution S → α} {x : α} (hrun : solve prob p f onChange s = (.ok sol, t))
    (h : (solveInRounds prob p f onChange rounds s).1.toOption.map view = some x) : view sol = x := by
  have hdone : (solveInRounds prob p f onChange rounds).Succeeds s fun sol _ => view sol = x := by
    unfold Act.Succeeds Act.Ensures
    rcases hresult : solveInRounds prob p f onChange rounds s with ⟨_ | sol, t⟩
    · rw [hresult] at h
      cases h
    · rw [hresult] at h
      exact Option.some.inj h
  exact (Act.ensures_of_run hrun).mp (succeeds_solve_of_inRounds hdone)

end Midend.Flow
