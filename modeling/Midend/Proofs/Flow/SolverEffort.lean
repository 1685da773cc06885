import Mathlib.Data.Finset.Card
import Mathlib.Data.List.Chain
import Midend.Flow.Schedule
import Midend.Proofs.Flow.ReachingStores

/-!
# How much work the solver does

The solver ends whatever its problem answers, also if a block adds something else at every visit.  What
carries this is that a set which leaves a block may only grow, and the solver gives up if it does not.  A
change of the set of a block puts the blocks it jumps to on the stack, so the rounds are counted by the
changes: each block is taken from the stack once, and once more for every jump from a block that changed.

To speak of the changes, they are recorded.  The solver is run beside a record that only its callback
writes to, and does what it does without one.

## Main definitions

* `Reports`: what the solver has reported, oldest first.
* `solveRecorded`: the solver beside a record of its reports.
* `capacity`: how much the sets of the blocks can still grow.
* `solveInRounds`: the solver with a bound on its rounds.
* `Tallied`: the reports account for the sets, the changes and the rounds so far.
* `maskProblem`: the problems over masks of 32 bits.
* `Accounted`: the reports of a run account for what it yields.

## Main results

* `extends_solveRecorded`: the record makes no difference.
* `solveInRounds_eq`: how many rounds are enough.
* `Tallied.change`, `ensures_solveRecorded`: one round, and all rounds.
* `solve_masks_accounted`: what comes of a problem over masks.
-/

namespace Midend

/-! ### Actions beside a record -/

namespace Act

variable {σ ρ α β : Type}

/-- The action beside a record, which it neither reads nor changes. -/
def beside (m : Act σ α) : Act (σ × ρ) α := fun s => ((m s.1).1, ((m s.1).2, s.2))

theorem beside_run {m : Act σ α} {s t : σ} {r : Except Fault α} (h : m s = (r, t)) (l : ρ) :
    (m.beside : Act (σ × ρ) α) (s, l) = (r, (t, l)) := by
  simp only [beside, h]

/-- Whatever is recorded, the action does to the state what the other one does. -/
def Extends (m : Act (σ × ρ) α) (m' : Act σ α) : Prop := ∀ s, m' s.1 = ((m s).1, (m s).2.1)

namespace Extends

theorem pure (a : α) : Extends (pure a : Act (σ × ρ) α) (pure a) := fun _ => rfl

theorem throw (e : Fault) : Extends (throw e : Act (σ × ρ) α) (throw e) := fun _ => rfl

theorem ofExcept (r : Except Fault α) : Extends (ofExcept r : Act (σ × ρ) α) (ofExcept r) := by
  cases r with
  | error e => exact .throw e
  | ok a => exact .pure a

theorem beside (m : Act σ α) : Extends (m.beside : Act (σ × ρ) α) m := fun _ => rfl

theorem bind {m : Act (σ × ρ) α} {m' : Act σ α} {k : α → Act (σ × ρ) β} {k' : α → Act σ β}
    (hm : Extends m m') (hk : ∀ a, Extends (k a) (k' a)) : Extends (m >>= k) (m' >>= k') := by
  intro s
  have hs := hm s
  cases hrun : m s with
  | mk r t =>
    rw [hrun] at hs
    cases r with
    | error e => rw [bind_of_error hs, bind_of_error hrun]
    | ok a => rw [bind_of_ok hs, bind_of_ok hrun, hk a t]

theorem ite {c : Prop} [Decidable c] {m k : Act (σ × ρ) α} {m' k' : Act σ α}
    (hm : c → Extends m m') (hk : ¬ c → Extends k k') :
    Extends (if c then m else k) (if c then m' else k') := by
  split
  · exact hm ‹c›
  · exact hk ‹¬ c›

theorem run {m : Act (σ × ρ) α} {m' : Act σ α} (h : Extends m m') {s t : σ × ρ} {r : Except Fault α}
    (hrun : m s = (r, t)) : m' s.1 = (r, t.1) := by
  rw [h s, hrun]

end Extends

end Act

theorem Program.nodup_successors (p : Program) (b : BlockRef) : (p.successors b).Nodup := by
  unfold successors
  split
  · exact nodup_eraseDups _
  · exact List.nodup_nil

namespace Flow

variable {σ S : Type}

/-! ### Reports -/

/-- What the solver has reported, oldest first: a block, and what leaves it from then on. -/
abbrev Reports (S : Type) := List (BlockRef × S)

namespace Reports

/-- What was reported of a block. -/
def about (l : Reports S) (b : BlockRef) : List S := (l.filter fun r => r.1 = b).map Prod.snd

/-- What was reported of a block last. -/
def latest (l : Reports S) (init : S) (b : BlockRef) : S := (l.about b).getLastD init

theorem about_concat (l : Reports S) (b c : BlockRef) (out : S) :
    Reports.about (l ++ [(b, out)]) c = if b = c then l.about c ++ [out] else l.about c := by
  unfold about
  rw [List.filter_append, List.map_append]
  by_cases hbc : b = c
  · simp [hbc]
  · simp [hbc]

theorem latest_concat (l : Reports S) (init : S) (b c : BlockRef) (out : S) :
    Reports.latest (l ++ [(b, out)]) init c = if b = c then out else l.latest init c := by
  unfold latest
  rw [about_concat]
  split
  · exact List.getLastD_concat
  · rfl

/-- A report that goes beyond the last one continues the growth. -/
theorem isChain_concat [PartialOrder S] {l : Reports S} {init out : S} {b : BlockRef}
    (h : ∀ c, (init :: l.about c).IsChain (· < ·)) (hlt : l.latest init b < out) (c : BlockRef) :
    (init :: Reports.about (l ++ [(b, out)]) c).IsChain (· < ·) := by
  rw [about_concat]
  split
  · next hbc =>
    subst hbc
    rw [← List.cons_append, List.isChain_append]
    refine ⟨h b, .singleton out, fun x hx y hy => ?_⟩
    rw [Option.mem_def, List.getLast?_cons] at hx
    cases hx
    cases hy
    rw [← List.getLastD_eq_getLast?]
    exact hlt
  · exact h c

/-- How many distinct blocks the reported ones jump to, counted for every report. -/
def pushes (l : Reports S) (p : Program) : Nat := sumOf (fun r => (p.successors r.1).toFinset.card) l

theorem pushes_concat (l : Reports S) (p : Program) (b : BlockRef) (out : S) :
    Reports.pushes (l ++ [(b, out)]) p = l.pushes p + (p.successors b).length := by
  unfold pushes
  rw [sumOf_append, ← List.toFinset_card_of_nodup (p.nodup_successors b)]
  rfl

/-- What enters a block: the union of what was reported last of its predecessors. -/
def entering (l : Reports S) (prob : Problem σ S) (p : Program) (b : BlockRef) : S :=
  (p.predecessors b).foldl (fun acc c => prob.merge acc (l.latest prob.init c)) prob.init

/-- A report makes a difference to the blocks behind the reported one only. -/
theorem entering_concat {l : Reports S} {prob : Problem σ S} {p : Program} {f : FuncId}
    {b c : BlockRef} {out : S} (hc : c ∈ p.blockRefs f) (hbc : c ∉ p.successors b) :
    Reports.entering (l ++ [(b, out)]) prob p c = l.entering prob p c := by
  refine List.foldl_ext _ _ _ fun acc d hd => ?_
  rw [latest_concat, if_neg]
  rintro rfl
  exact hbc ((Program.mem_predecessors hc).mp hd).2

end Reports

/-! ### The solver beside a record -/

/-- The problem beside a record of reports. -/
def Problem.recorded (prob : Problem σ S) : Problem (σ × Reports S) S :=
  { prob with
    program := fun s => prob.program s.1, gen := fun b => (prob.gen b).beside,
    kill := fun b gen => (prob.kill b gen).beside }

theorem Problem.recorded_gen {prob : Problem σ S} {b : BlockRef} {s t : σ} {r : Except Fault S}
    (h : prob.gen b s = (r, t)) (l : Reports S) : prob.recorded.gen b (s, l) = (r, (t, l)) :=
  Act.beside_run h l

theorem Problem.recorded_kill {prob : Problem σ S} {b : BlockRef} {gen : S} {s t : σ}
    {r : Except Fault S} (h : prob.kill b gen s = (r, t)) (l : Reports S) :
    prob.recorded.kill b gen (s, l) = (r, (t, l)) :=
  Act.beside_run h l

/-- Records a report and passes it on. -/
def recording (onChange : BlockRef → S → Act σ Unit) (b : BlockRef) (out : S) :
    Act (σ × Reports S) Unit := do
  modify fun s => (s.1, s.2 ++ [(b, out)])
  (onChange b out).beside

/-- Solves a problem for a function beside a record of reports. -/
def solveRecorded (prob : Problem σ S) (p : Program) (f : FuncId)
    (onChange : BlockRef → S → Act σ Unit) : Act (σ × Reports S) (Solution S) :=
  solve prob.recorded p f (recording onChange)

section Recorded

variable (prob : Problem σ S) (p : Program) (g : Graph EdgeList) (onChange : BlockRef → S → Act σ Unit)

theorem extends_recording (b : BlockRef) (out : S) :
    (recording onChange b out).Extends (onChange b out) := fun _ => rfl

theorem extends_solveFrom (sol : Solution S) (stack : List BlockRef) :
    (solveFrom prob.recorded p g (recording onChange) sol stack).Extends
      (solveFrom prob p g onChange sol stack) := by
  induction sol, stack using solveFrom.induct prob g with
  | case1 sol =>
    rw [solveFrom, solveFrom]
    exact .pure sol
  | case2 sol b stack hold ih =>
    simp only [solveFrom_cons, visitTop, hold]
    exact ih
  | case3 sol b stack old hold inn ihEqual ihChange =>
    simp only [solveFrom_cons, visitTop, hold]
    refine .bind (.beside _) fun gen => .bind (.beside _) fun kill => ?_
    refine .ite (fun _ => ihEqual gen kill) fun heq => .ite (fun hinc => ?_) fun _ => .throw _
    refine .bind (extends_recording onChange b _) fun _ => ?_
    exact fun s => ihChange gen kill heq hinc s.1 s

/-- **The record makes no difference.** -/
theorem extends_solveRecorded (f : FuncId) :
    (solveRecorded prob p f onChange).Extends (solve prob p f onChange) :=
  .bind (.ofExcept _) fun g => extends_solveFrom prob p g onChange _ _

end Recorded

/-! ### How much sets can grow -/

/-- How much room the set has that is noted for a block. -/
def BlockMap.roomOf (m : BlockMap S) (room : S → Nat) (b : BlockRef) : Nat :=
  ((m.get? b).map room).getD 0

/-- How much the sets that leave the blocks of a function can still grow, where each block has a
weight. -/
def capacity (p : Program) (f : FuncId) (weight : BlockRef → Nat) (room : S → Nat)
    (outs : BlockMap S) : Nat :=
  sumOf (fun b => weight b * outs.roomOf room b) (p.blockRefs f)

section Capacity

variable {p : Program} {f : FuncId} {room : S → Nat} {outs : BlockMap S}

/-- A set that grows takes the weight of its block. -/
theorem capacity_set (weight : BlockRef → Nat) {b : BlockRef} {old new : S} (hb : b ∈ p.blockRefs f)
    (hold : outs.get? b = some old) (hlt : room new < room old) :
    capacity p f weight room (outs.set b new) + weight b ≤ capacity p f weight room outs := by
  have hroom : ∀ c, (outs.set b new).roomOf room c =
      if b = c then room new else outs.roomOf room c := by
    intro c
    unfold BlockMap.roomOf
    rw [BlockMap.get?_set hold]
    split <;> rfl
  have hbefore : outs.roomOf room b = room old := by
    unfold BlockMap.roomOf
    rw [hold]
    rfl
  refine sumOf_add_le (fun c _ => Nat.mul_le_mul_left _ ?_) hb ?_
  · rw [hroom]
    split
    · next hbc =>
      rw [← hbc, hbefore]
      exact Nat.le_of_lt hlt
    · exact Nat.le_refl _
  · rw [hroom, if_pos rfl, hbefore]
    calc weight b * room new + weight b = weight b * (room new + 1) := (Nat.mul_succ _ _).symm
      _ ≤ weight b * room old := Nat.mul_le_mul_left _ hlt

theorem capacity_fill (weight : BlockRef → Nat) (init : S) :
    capacity p f weight room (.fill p.allBlockRefs init) =
      sumOf weight (p.blockRefs f) * room init := by
  have hall : ∀ l : List BlockRef, (∀ b ∈ l, b ∈ p.blockRefs f) →
      sumOf (fun b => weight b * (BlockMap.fill p.allBlockRefs init).roomOf room b) l =
        sumOf weight l * room init := by
    intro l hl
    induction l with
    | nil => exact (Nat.zero_mul _).symm
    | cons b l ih =>
      rw [List.forall_mem_cons] at hl
      have hroom : (BlockMap.fill p.allBlockRefs init).roomOf room b = room init := by
        unfold BlockMap.roomOf
        rw [BlockMap.get?_fill, if_pos (Program.mem_allBlockRefs hl.1)]
        rfl
      rw [sumOf, sumOf, ih hl.2, hroom, Nat.add_mul]
  exact hall _ fun _ hb => hb

end Capacity

/-! ### How many rounds are enough -/

section Rounds

variable {prob : Problem σ S} {p : Program} {f : FuncId} (hjumps : p.JumpsWithin f)
  (hlive : ∀ b ∈ p.blockRefs f, ∀ s, (prob.program s).successors b = p.successors b)

include hjumps hlive

/-- A round takes a block from the stack, and if it puts others there, then the sets can grow less by as
many as these. -/
theorem solveWithin_eq (g : Graph EdgeList) (onChange : BlockRef → S → Act σ Unit) (rounds : Nat)
    (sol : Solution S) (stack : List BlockRef) (hstack : ∀ b ∈ stack, b ∈ p.blockRefs f)
    (henough : stack.length +
      capacity p f (fun b => (p.successors b).length) prob.room sol.outs ≤ rounds) :
    solveWithin prob p g onChange rounds sol stack = solveFrom prob p g onChange sol stack := by
  induction rounds generalizing sol stack with
  | zero =>
    obtain rfl : stack = [] := List.length_eq_zero_iff.mp (by omega)
    rw [solveWithin, solveFrom]
  | succ rounds ih =>
    cases stack with
    | nil => rw [solveWithin, solveFrom]
    | cons b stack =>
      rw [List.length_cons] at henough
      rw [List.forall_mem_cons] at hstack
      rw [solveWithin, solveFrom_cons]
      refine visitTop_congr (fun _ => ih sol stack hstack.2 (by omega)) (fun inn gen kill => ?_)
        fun old inn gen kill out s hold hne hinc => ?_
      · refine ih _ stack hstack.2 ?_
        change stack.length + capacity p f _ prob.room sol.outs ≤ rounds
        omega
      · rw [hlive b hstack.1 s]
        refine ih _ _ (fun c hc => ?_) ?_
        · rcases List.mem_append.mp hc with hc | hc
          · exact hjumps b hstack.1 c (List.mem_reverse.mp hc)
          · exact hstack.2 c hc
        · have hspent := capacity_set (fun b => (p.successors b).length) hstack.1 hold
            (prob.room_lt out old hne hinc)
          rw [List.length_append, List.length_reverse]
          change _ + capacity p f _ prob.room (sol.outs.set b out) ≤ rounds
          omega

/-- **So many rounds are enough:** one for every block, and one for every jump each time that the set of
the block it comes from can grow. -/
theorem solveInRounds_eq (onChange : BlockRef → S → Act σ Unit) {rounds : Nat}
    (henough : (p.blockRefs f).length +
      sumOf (fun b => (p.successors b).length) (p.blockRefs f) * prob.room prob.init ≤ rounds) :
    solveInRounds prob p f onChange rounds = solve prob p f onChange := by
  unfold solveInRounds solve
  refine bind_congr fun g => ?_
  refine solveWithin_eq hjumps hlive g onChange rounds _ _ (fun b => List.mem_reverse.mp) ?_
  rw [List.length_reverse]
  change _ + capacity p f _ prob.room (.fill p.allBlockRefs prob.init) ≤ rounds
  rw [capacity_fill]
  exact henough

end Rounds

/-! ### What the reports tell -/

/-- Sets are compared by an order. -/
structure Problem.Ordered [PartialOrder S] (prob : Problem σ S) : Prop where
  equal : ∀ s t, prob.equal s t = true ↔ s = t
  includes : ∀ s t, prob.includes s t = true ↔ t ≤ s

/-- What is noted for a block and what was reported of it follow from what was reported of its
predecessors. -/
structure Balanced (prob : Problem σ S) (p : Program) (l : Reports S) (sol : Solution S)
    (b : BlockRef) (gen kill : S) : Prop where
  ins : sol.ins.get? b = some (l.entering prob p b)
  gens : sol.gens.get? b = some gen
  kills : sol.kills.get? b = some kill
  latest : l.latest prob.init b = prob.transfer (l.entering prob p b) gen kill

/-- The reports account for the sets, for the changes and for the rounds so far. -/
structure Tallied [PartialOrder S] (prob : Problem σ S) (p : Program) (f : FuncId) (l : Reports S)
    (sol : Solution S) (stack : List BlockRef) : Prop where
  /-- The blocks on the stack are blocks of the function. -/
  within : ∀ b ∈ stack, b ∈ p.blockRefs f
  /-- So are those that were reported. -/
  about : ∀ r ∈ l, r.1 ∈ p.blockRefs f
  /-- Something is noted for every block. -/
  noted : ∀ b ∈ p.blockRefs f, (∃ s, sol.ins.get? b = some s) ∧ (∃ s, sol.gens.get? b = some s) ∧
    ∃ s, sol.kills.get? b = some s
  /-- What leaves a block is what was reported last. -/
  outs : ∀ b ∈ p.blockRefs f, sol.outs.get? b = some (l.latest prob.init b)
  /-- It has grown from one report to the next. -/
  growing : ∀ b, (prob.init :: l.about b).IsChain (· < ·)
  /-- A block that need not be visited is balanced. -/
  balanced : ∀ b ∈ p.blockRefs f, b ∈ stack ∨ ∃ gen kill, Balanced prob p l sol b gen kill
  /-- There is one report for each change. -/
  changes : sol.changes = l.length
  /-- A block is put on the stack to begin with, and for each report of a block that jumps to it. -/
  pops : sol.pops + stack.length = (p.blockRefs f).length + l.pushes p
  /-- Each report takes some of the room. -/
  spent : l.length + capacity p f (fun _ => 1) prob.room sol.outs ≤
    (p.blockRefs f).length * prob.room prob.init

namespace Tallied

variable [PartialOrder S] {prob : Problem σ S} {p : Program} {f : FuncId} {l : Reports S}
  {sol : Solution S} {stack : List BlockRef} {b : BlockRef} {gen kill : S}

/-- There are no reports to begin with. -/
theorem start (prob : Problem σ S) (p : Program) (f : FuncId) (unreachable : List BlockRef) :
    Tallied prob p f [] (.start prob p unreachable) (p.blockRefs f).reverse := by
  have hget : ∀ b ∈ p.blockRefs f,
      (BlockMap.fill p.allBlockRefs prob.init).get? b = some prob.init := by
    intro b hb
    rw [BlockMap.get?_fill, if_pos (Program.mem_allBlockRefs hb)]
  refine ⟨fun b => List.mem_reverse.mp, fun _ hr => absurd hr List.not_mem_nil, fun b hb => ?_, hget,
    fun b => .singleton _, fun b hb => .inl (List.mem_reverse.mpr hb), rfl, ?_, ?_⟩
  · exact ⟨⟨_, hget b hb⟩, ⟨_, hget b hb⟩, ⟨_, hget b hb⟩⟩
  · rw [List.length_reverse]
    exact Nat.zero_add _
  · have hone : ∀ blocks : List BlockRef, sumOf (fun _ => 1) blocks = blocks.length := by
      intro blocks
      induction blocks with
      | nil => rfl
      | cons b blocks ih => rw [sumOf, ih, List.length_cons, Nat.add_comm]
    change 0 + capacity p f _ prob.room (.fill p.allBlockRefs prob.init) ≤ _
    rw [capacity_fill, hone, Nat.zero_add]

/-- What enters a block now is what the reports tell. -/
theorem entering_eq (h : Tallied prob p f l sol stack) (hjumps : p.JumpsWithin f)
    (hb : b ∈ p.blockRefs f) :
    Flow.entering prob (.taken p f) sol.outs b = l.entering prob p b := by
  unfold Flow.entering Reports.entering
  rw [Graph.predecessors_taken hjumps hb]
  refine List.foldl_ext _ _ _ fun acc c hc => ?_
  rw [h.outs c ((Program.mem_predecessors hb).mp hc).1, Option.getD_some]

/-- What is noted after a visit. -/
theorem noted_revisited (h : Tallied prob p f l sol stack) (hb : b ∈ p.blockRefs f) (inn gen kill : S)
    (c : BlockRef) :
    (sol.revisited b inn gen kill).ins.get? c = (if b = c then some inn else sol.ins.get? c) ∧
    (sol.revisited b inn gen kill).gens.get? c = (if b = c then some gen else sol.gens.get? c) ∧
    (sol.revisited b inn gen kill).kills.get? c = if b = c then some kill else sol.kills.get? c := by
  obtain ⟨⟨_, hi⟩, ⟨_, hg⟩, ⟨_, hk⟩⟩ := h.noted b hb
  exact ⟨BlockMap.get?_set hi _ c, BlockMap.get?_set hg _ c, BlockMap.get?_set hk _ c⟩

theorem exists_noted (h : Tallied prob p f l sol stack) (hb : b ∈ p.blockRefs f) (inn gen kill : S)
    {c : BlockRef} (hc : c ∈ p.blockRefs f) :
    (∃ s, (sol.revisited b inn gen kill).ins.get? c = some s) ∧
      (∃ s, (sol.revisited b inn gen kill).gens.get? c = some s) ∧
      ∃ s, (sol.revisited b inn gen kill).kills.get? c = some s := by
  obtain ⟨hi, hg, hk⟩ := h.noted_revisited hb inn gen kill c
  rw [hi, hg, hk]
  split
  · exact ⟨⟨_, rfl⟩, ⟨_, rfl⟩, ⟨_, rfl⟩⟩
  · exact h.noted c hc

/-- **A visit that changes nothing.** -/
theorem revisit (h : Tallied prob p f l sol (b :: stack))
    (hsame : prob.transfer (l.entering prob p b) gen kill = l.latest prob.init b) :
    Tallied prob p f l (sol.revisited b (l.entering prob p b) gen kill) stack := by
  have hb : b ∈ p.blockRefs f := h.within b List.mem_cons_self
  refine ⟨fun c hc => h.within c (List.mem_cons_of_mem b hc), h.about,
    fun c hc => h.exists_noted hb _ _ _ hc, h.outs, h.growing, fun c hc => ?_, h.changes, ?_, h.spent⟩
  · obtain ⟨hi, hg, hk⟩ := h.noted_revisited hb (l.entering prob p b) gen kill c
    by_cases hbc : b = c
    · subst hbc
      rw [if_pos rfl] at hi hg hk
      exact .inr ⟨gen, kill, hi, hg, hk, hsame.symm⟩
    · rw [if_neg hbc] at hi hg hk
      rcases h.balanced c hc with hstack | ⟨gen', kill', hbal⟩
      · exact .inl ((List.mem_cons.mp hstack).resolve_left (Ne.symm hbc))
      · exact .inr ⟨gen', kill', hi.trans hbal.ins, hg.trans hbal.gens, hk.trans hbal.kills,
          hbal.latest⟩
  · have hpops := h.pops
    rw [List.length_cons] at hpops
    change sol.pops + 1 + stack.length = _
    omega

/-- **A visit that changes what leaves the block.**  Then the blocks it jumps to are on the stack. -/
theorem change (h : Tallied prob p f l sol (b :: stack)) (hjumps : p.JumpsWithin f) {out : S}
    (hout : out = prob.transfer (l.entering prob p b) gen kill) (hlt : l.latest prob.init b < out)
    (hroom : prob.room out < prob.room (l.latest prob.init b)) :
    Tallied prob p f (l ++ [(b, out)]) (sol.changed b (l.entering prob p b) gen kill out)
      ((p.successors b).reverse ++ stack) := by
  have hb : b ∈ p.blockRefs f := h.within b List.mem_cons_self
  refine ⟨fun c hc => ?_, fun r hr => ?_, fun c hc => h.exists_noted hb _ _ _ hc, fun c hc => ?_,
    Reports.isChain_concat h.growing hlt, fun c hc => ?_, ?_, ?_, ?_⟩
  · rcases List.mem_append.mp hc with hc | hc
    · exact hjumps b hb c (List.mem_reverse.mp hc)
    · exact h.within c (List.mem_cons_of_mem b hc)
  · rcases List.mem_append.mp hr with hr | hr
    · exact h.about r hr
    · rw [List.mem_singleton.mp hr]
      exact hb
  · change (sol.outs.set b out).get? c = _
    rw [BlockMap.get?_set (h.outs b hb), Reports.latest_concat, h.outs c hc]
    split <;> rfl
  · by_cases hstack : c ∈ (p.successors b).reverse ++ stack
    · exact .inl hstack
    -- No predecessor of the block has changed, else it would be on the stack.
    · obtain ⟨hjump, hstack⟩ := not_or.mp (List.mem_append.not.mp hstack)
      have henter : Reports.entering (l ++ [(b, out)]) prob p c = l.entering prob p c :=
        Reports.entering_concat hc (List.mem_reverse.not.mp hjump)
      obtain ⟨hi, hg, hk⟩ := h.noted_revisited hb (l.entering prob p b) gen kill c
      by_cases hbc : b = c
      · subst hbc
        rw [if_pos rfl] at hi hg hk
        refine .inr ⟨gen, kill, hi.trans (by rw [henter]), hg, hk, ?_⟩
        rw [Reports.latest_concat, if_pos rfl, henter]
        exact hout
      · rw [if_neg hbc] at hi hg hk
        have hnot : c ∉ b :: stack := by
          rw [List.mem_cons]
          exact not_or.mpr ⟨Ne.symm hbc, hstack⟩
        obtain ⟨gen', kill', hbal⟩ := (h.balanced c hc).resolve_left hnot
        refine .inr ⟨gen', kill', ?_, hg.trans hbal.gens, hk.trans hbal.kills, ?_⟩
        · rw [henter]
          exact hi.trans hbal.ins
        · rw [Reports.latest_concat, if_neg hbc, henter]
          exact hbal.latest
  · change sol.changes + 1 = _
    rw [h.changes, List.length_append]
    rfl
  · have hpops := h.pops
    rw [List.length_cons] at hpops
    rw [List.length_append, List.length_reverse, Reports.pushes_concat]
    change sol.pops + 1 + _ = _
    omega
  · have hspent := h.spent
    have htaken := capacity_set (fun _ => 1) hb (h.outs b hb) hroom
    rw [List.length_append, List.length_singleton]
    change _ + capacity p f _ prob.room (sol.outs.set b out) ≤ _
    omega

end Tallied

/-! ### The run -/

/-- The problem and the callback keep a property of the state and the reports, and have no faults. -/
structure Problem.Runs (prob : Problem σ S) (p : Program) (f : FuncId)
    (onChange : BlockRef → S → Act σ Unit) (I : σ → Reports S → Prop) : Prop where
  gen : ∀ b ∈ p.blockRefs f, ∀ s l, I s l → (prob.gen b).Succeeds s fun _ t => I t l
  kill : ∀ b ∈ p.blockRefs f, ∀ gen s l, I s l → (prob.kill b gen).Succeeds s fun _ t => I t l
  onChange : ∀ b ∈ p.blockRefs f, ∀ out s l, I s l →
    (onChange b out).Succeeds s fun _ t => I t (l ++ [(b, out)])
  jumps : ∀ b ∈ p.blockRefs f, ∀ s l, I s l → (prob.program s).successors b = p.successors b

section Order

variable [PartialOrder S] {prob : Problem σ S} {p : Program} {f : FuncId}
  {onChange : BlockRef → S → Act σ Unit} {I : σ → Reports S → Prop}

/-- A visit of the block that ends in the state `t` finds that something is missing from what was
reported of the block. -/
def Shrinks (prob : Problem σ S) (p : Program) (l : Reports S) (b : BlockRef) (t : σ) : Prop :=
  ∃ gen kill s u, prob.gen b s = (.ok gen, u) ∧ prob.kill b gen u = (.ok kill, t) ∧
    ¬ l.latest prob.init b ≤ prob.transfer (l.entering prob p b) gen kill

/-- **The run beside its record.**  The reports account for it, also when it ends because a set is
shrinking. -/
theorem ensures_solveRecorded (hord : prob.Ordered) (hjumps : p.JumpsWithin f)
    (hruns : prob.Runs p f onChange I) {s : σ} (hs : I s []) :
    (solveRecorded prob p f onChange).Ensures (s, [])
      (fun sol t => I t.1 t.2 ∧ Tallied prob p f t.2 sol [])
      fun e t => I t.1 t.2 ∧ (∃ sol stack, Tallied prob p f t.2 sol stack) ∧
        ∃ b ∈ p.blockRefs f, e = .shrinking (p.block b).name ∧ Shrinks prob p t.2 b t.1 := by
  unfold solveRecorded solve
  rw [Graph.ofFunc_eq hjumps, Act.ensures_bind, Act.ensures_ofExcept_ok]
  refine ensures_solveFrom prob.recorded p (.taken p f) (recording onChange)
    (fun sol stack t => I t.1 t.2 ∧ Tallied prob p f t.2 sol stack) ?_ ?_ _ _ (s, [])
    ⟨hs, .start prob p f _⟩
  · -- Something is noted for every block on the stack, so none is passed over.
    rintro sol b stack t hnone ⟨-, ht⟩
    rw [ht.outs b (ht.within b List.mem_cons_self)] at hnone
    cases hnone
  · rintro sol b stack ⟨t, l⟩ old hold ⟨hI, ht⟩
    have hb : b ∈ p.blockRefs f := ht.within b List.mem_cons_self
    obtain rfl : l.latest prob.init b = old := Option.some.inj ((ht.outs b hb).symm.trans hold)
    obtain ⟨gen, t₁, hgen, hI₁⟩ := (hruns.gen b hb t l hI).exists_eq
    obtain ⟨kill, t₂, hkill, hI₂⟩ := (hruns.kill b hb gen t₁ l hI₁).exists_eq
    have hinn : entering prob.recorded (.taken p f) sol.outs b = l.entering prob p b :=
      ht.entering_eq hjumps hb
    refine (Act.ensures_of_run (Act.beside_run hgen l)).mpr ?_
    refine (Act.ensures_of_run (Act.beside_run hkill l)).mpr ?_
    dsimp only
    rw [hinn]
    refine ⟨fun heq => ⟨hI₂, ?_⟩, fun hne hinc => ?_, fun hne hinc => ?_⟩
    · exact ht.revisit ((hord.equal _ _).mp heq)
    · obtain ⟨_, t₃, hnote, hI₃⟩ := (hruns.onChange b hb _ t₂ l hI₂).exists_eq
      have hrun : recording onChange b (prob.transfer (l.entering prob p b) gen kill) (t₂, l) =
          (.ok (), (t₃, l ++ [(b, prob.transfer (l.entering prob p b) gen kill)])) :=
        Act.beside_run hnote _
      refine (Act.ensures_of_run hrun).mpr ⟨hI₃, ?_⟩
      have hsuccessors : (prob.program t₃).successors b = p.successors b := hruns.jumps b hb t₃ _ hI₃
      change Tallied prob p f _ _ (((prob.program t₃).successors b).reverse ++ stack)
      rw [hsuccessors]
      refine ht.change hjumps rfl ?_ (prob.room_lt _ _ hne hinc)
      refine lt_of_le_of_ne ((hord.includes _ _).mp hinc) fun hsame => ?_
      exact Bool.eq_false_iff.mp hne ((hord.equal _ _).mpr hsame.symm)
    · refine ⟨hI₂, ⟨sol, b :: stack, ht⟩, b, hb, rfl, gen, kill, t, t₁, hgen, hkill, fun hle => ?_⟩
      exact Bool.eq_false_iff.mp hinc ((hord.includes _ _).mpr hle)

/-- The reports of a run account for what it yields: the fault that a set is shrinking, or sets that
follow from each other by the equations, what was noted for the blocks last being what they add and
remove. -/
structure Accounted (prob : Problem σ S) (p : Program) (f : FuncId) (l : Reports S)
    (r : Except Fault (Solution S)) (t : σ) : Prop where
  about : ∀ b out, (b, out) ∈ l → b ∈ p.blockRefs f
  growing : ∀ b, (prob.init :: l.about b).IsChain (· < ·)
  few : l.length ≤ (p.blockRefs f).length * prob.room prob.init
  ends : (∃ b ∈ p.blockRefs f, r = .error (.shrinking (p.block b).name) ∧ Shrinks prob p l b t) ∨
    ∃ sol, r = .ok sol ∧ sol.changes = l.length ∧
      sol.pops = (p.blockRefs f).length + l.pushes p ∧
      ∀ b ∈ p.blockRefs f, sol.outs.get? b = some (l.latest prob.init b) ∧
        ∃ gen kill, Balanced prob p l sol b gen kill

/-- Every run is accounted for, and comes to an end. -/
theorem exists_accounted (hord : prob.Ordered) (hjumps : p.JumpsWithin f)
    (hruns : prob.Runs p f onChange I) {s : σ} (hs : I s []) :
    ∃ r t l, solve prob p f onChange s = (r, t) ∧
      solveRecorded prob p f onChange (s, []) = (r, (t, l)) ∧ I t l ∧ Accounted prob p f l r t := by
  have hend := ensures_solveRecorded hord hjumps hruns hs
  have hextends := extends_solveRecorded prob p onChange f
  unfold Act.Ensures at hend
  rcases hrun : solveRecorded prob p f onChange (s, []) with ⟨e | sol, t, l⟩
  · rw [hrun] at hend
    obtain ⟨hI, ⟨sol, stack, ht⟩, b, hb, rfl, hshrinks⟩ := hend
    refine ⟨_, t, l, hextends.run hrun, rfl, hI, fun _ _ => ht.about _, ht.growing, ?_,
      .inl ⟨b, hb, rfl, hshrinks⟩⟩
    exact (Nat.le_add_right _ _).trans ht.spent
  · rw [hrun] at hend
    obtain ⟨hI, ht⟩ := hend
    refine ⟨_, t, l, hextends.run hrun, rfl, hI, fun _ _ => ht.about _, ht.growing, ?_,
      .inr ⟨sol, rfl, ht.changes, ht.pops, fun b hb => ⟨ht.outs b hb, ?_⟩⟩⟩
    · exact (Nat.le_add_right _ _).trans ht.spent
    · exact (ht.balanced b hb).resolve_left List.not_mem_nil

end Order

/-! ### Masks -/

/-- A mask that grows lacks fewer elements. -/
theorem room_lt_mask (new old : Mask) (hne : decide (new = old) = false)
    (hsub : old.subset new = true) : new.room < old.room :=
  BitSet.room_lt (of_decide_eq_false hne) hsub

/-- The problem over masks in which a block adds what `gen` tells, which may be something else at every
visit, removes the mask `kill` tells, and may let nothing through. -/
def maskProblem (p : Program) (gen : BlockRef → σ → Mask × σ) (kill : BlockRef → Mask)
    (ignoreIn : Bool) : Problem σ Mask where
  program _ := p
  init := .empty
  gen b := modifyGet (gen b)
  kill b _ := pure (kill b)
  transfer inn gen kill := if ignoreIn then gen else (inn.diff kill).union gen
  merge := BitSet.union
  equal s t := s = t
  includes s t := t.subset s
  room := BitSet.room
  room_lt := room_lt_mask

theorem ordered_maskProblem (p : Program) (gen : BlockRef → σ → Mask × σ) (kill : BlockRef → Mask)
    (ignoreIn : Bool) : (maskProblem p gen kill ignoreIn).Ordered :=
  ⟨fun _ _ => decide_eq_true_iff, fun _ _ => BitSet.subset_iff⟩

theorem room_empty_mask : BitSet.room (.empty : Mask) = 32 := by decide

end Flow

open Flow in
/-- **How a problem over masks ends,** for every function whose jumps stay within it, whatever the
blocks add from visit to visit.  The solver comes to an end, and it is told how many rounds are enough.
Its reports account for what it yields: each set has grown from one report to the next, there are at
most 32 reports for each block, as many as changes, and a block is visited once, and once more for every
report of a block that jumps to it.  The fault that a set is shrinking is the only one, and comes up only
if one is.  Schedules are a case of such problems, and what they note down are the reports. -/
theorem solve_masks_accounted {p : Program} {f : FuncId} (hjumps : p.JumpsWithin f) :
    (∀ (σ : Type) (gen : BlockRef → σ → Mask × σ) (kill : BlockRef → Mask) (ignoreIn : Bool)
        (note : BlockRef → Mask → σ → σ) (s : σ),
      let prob := maskProblem p gen kill ignoreIn
      let onChange := fun b out => (modify (note b out) : Act σ Unit)
      ∃ r t l, solve prob p f onChange s = (r, t) ∧
        solveRecorded prob p f onChange (s, []) = (r, (t, l)) ∧
        (∀ rounds, (p.blockRefs f).length +
            32 * sumOf (fun b => (p.successors b).length) (p.blockRefs f) ≤ rounds →
          solveInRounds prob p f onChange rounds s = (r, t)) ∧
        l.length ≤ 32 * (p.blockRefs f).length ∧ Accounted prob p f l r t) ∧
    ∀ (m : Schedule) (v : Visits), ∃ r t l, m.solve p f v = (r, t) ∧
      t.changes = v.changes ++ l.map (fun c => ((p.block c.1).name, c.2)) ∧
      l.length ≤ 32 * (p.blockRefs f).length ∧ Accounted (m.problem p) p f l r t := by
  refine ⟨fun σ gen kill ignoreIn note s => ?_, fun m v => ?_⟩
  · intro prob onChange
    have hruns : prob.Runs p f onChange fun _ _ => True :=
      ⟨fun _ _ _ _ _ => trivial, fun _ _ _ _ _ _ => trivial, fun _ _ _ _ _ _ => trivial,
        fun _ _ _ _ _ => rfl⟩
    obtain ⟨r, t, l, hrun, hrecorded, -, hall⟩ :=
      exists_accounted (ordered_maskProblem p gen kill ignoreIn) hjumps hruns (s := s) trivial
    have hroom : prob.room prob.init = 32 := by
      dsimp only [prob, maskProblem]
      exact room_empty_mask
    refine ⟨r, t, l, hrun, hrecorded, fun rounds henough => ?_, ?_, hall⟩
    · rw [solveInRounds_eq hjumps (fun _ _ _ => rfl) onChange (by rw [hroom, Nat.mul_comm]; exact henough), hrun]
    · have hfew := hall.few
      rwa [hroom, Nat.mul_comm] at hfew
  · let I : Visits → Reports Mask → Prop := fun u l =>
      u.changes = v.changes ++ l.map fun c => ((p.block c.1).name, c.2)
    have hruns : (m.problem p).Runs p f
        (fun b out => modify fun u => { u with changes := u.changes ++ [((p.block b).name, out)] }) I := by
      refine ⟨fun _ _ _ _ hI => hI, fun _ _ _ _ _ hI => hI, fun b _ out u l hI => ?_,
        fun _ _ _ _ _ => rfl⟩
      change u.changes ++ [((p.block b).name, out)] = _
      rw [hI, List.append_assoc, List.map_append]
      rfl
    have hord : (m.problem p).Ordered :=
      ⟨fun _ _ => decide_eq_true_iff, fun _ _ => BitSet.subset_iff⟩
    obtain ⟨r, t, l, hrun, -, hI, hall⟩ :=
      exists_accounted hord hjumps hruns (s := v) (List.append_nil _).symm
    have hfew := hall.few
    have hroom : (m.problem p).room (m.problem p).init = 32 := by
      dsimp only [Schedule.problem]
      exact room_empty_mask
    rw [hroom, Nat.mul_comm] at hfew
    exact ⟨r, t, l, hrun, hI, hfew, hall⟩

open Flow in
/-- The state counts the visits.  The loop adds one element at first and another one later. -/
def restless (b : BlockRef) (visits : Nat) : Mask × Nat :=
  (if b.index = 1 then if visits < 4 then .ofList [0] else .ofList [1] else .empty, visits + 1)

open Flow in
/-- What the loop has added enters it again, so that its set grows to two elements.  If blocks let
nothing through, a set is shrinking. -/
theorem solve_masks_accounted_looped : ∃ p, Program.parse "m" looped = .ok p ∧
    (∃ sol t l, solve (maskProblem p restless (fun _ => .empty) false) p 0 (fun _ _ => modify id) 0 =
        (.ok sol, t) ∧
      sol.changes = 4 ∧ sol.pops = 8 ∧ l.length = 4 ∧
      Accounted (maskProblem p restless (fun _ => .empty) false) p 0 l (.ok sol) t) ∧
    ∃ b ∈ p.blockRefs 0, ∃ t l,
      solve (maskProblem p restless (fun _ => .empty) true) p 0 (fun _ _ => modify id) 0 =
        (.error (.shrinking (p.block b).name), t) ∧
      Shrinks (maskProblem p restless (fun _ => .empty) true) p l b t := by
  obtain ⟨p, hp, hfacts⟩ : ∃ p, Program.parse "m" looped = .ok p ∧
      ((p.blockRefs 0).length + 32 * sumOf (fun b => (p.successors b).length) (p.blockRefs 0) == 132 &&
        ((solveInRounds (maskProblem p restless (fun _ => .empty) false) p 0 (fun _ _ => modify id)
          132 0).1.toOption.map fun sol => (sol.changes, sol.pops)) == some (4, 8) &&
        !(solveInRounds (maskProblem p restless (fun _ => .empty) true) p 0 (fun _ _ => modify id)
          132 0).1.toBool) = true :=
    Program.exists_of_parse (by decide +kernel)
  simp only [Bool.and_eq_true, beq_iff_eq, Bool.not_eq_true'] at hfacts
  obtain ⟨⟨hrounds, hgrows⟩, hshrinks⟩ := hfacts
  have hjumps : p.JumpsWithin 0 := (Program.wellFormed_of_parse hp).1.jumpsWithin 0
  have hmasks := (@solve_masks_accounted p 0 hjumps).1 Nat restless (fun _ => .empty)
  refine ⟨p, hp, ?_, ?_⟩
  · obtain ⟨r, t, l, hrun, -, hbounded, -, hall⟩ := hmasks false (fun _ _ => id) 0
    rw [hbounded 132 hrounds.le] at hgrows
    rcases hall.ends with ⟨b, -, rfl, -⟩ | ⟨sol, rfl, hchanges, hpops, -⟩
    · cases hgrows
    · obtain ⟨hfour, height⟩ := Prod.mk.inj (Option.some.inj hgrows)
      exact ⟨sol, t, l, hrun, hfour, height, hchanges.symm.trans hfour, hall⟩
  · obtain ⟨r, t, l, hrun, -, hbounded, -, hall⟩ := hmasks true (fun _ _ => id) 0
    rw [hbounded 132 hrounds.le] at hshrinks
    rcases hall.ends with ⟨b, hb, rfl, hless⟩ | ⟨sol, rfl, -⟩
    · exact ⟨b, hb, t, l, hrun, hless⟩
    · cases hshrinks

end Midend
