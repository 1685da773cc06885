import Midend.Proofs.Pass.RewriteSteps

/-!
# The peephole walk and the sweep

From a well-formed program neither the peephole walk nor the sweep can go wrong, and whatever they
do is a sequence of rewriting steps.  That the walk comes to the end of a block, although
instructions before and behind it are erased meanwhile, is because the numbers it meets increase.
That the sweep comes to an end is because every instruction that lines up again stands for an
operand that was given up.

## Main definitions

* `Session.Leads`: rewriting steps between the states of a session.
* `Pass.Safe`: a pass that cannot go wrong and rewrites only.
* `Session.WalkRelation`: what every step of a walk keeps.
* `Session.StepRelation`: what every change keeps that a step can make.
* `Program.SweepInvariant`: what every step of a sweep keeps.

## Main results

* `safe_visitInstr`: one step of the walk.
* `Session.WalkRelation.walks_walk`: the rule for the walk.
* `safe_walk`: the whole walk.
* `Program.SweepInvariant.succeeds`: the rule for the sweep.
* `safe_sweep`: the sweep.
-/

namespace Midend

/-! ### Safe passes -/

/-- From one state to another by rewriting steps, with all merges counted and at most the given
number of rounds.  There are merges only if `merging` holds. -/
structure Session.Leads (merging : Prop) (rounds : Nat) (s t : Session) : Prop where
  /-- The steps. -/
  path : ∃ ms, Rewrites ms s.program t.program ∧ t.stats.cse = s.stats.cse + ms.length ∧
    (ms ≠ [] → merging)
  /-- The rounds. -/
  rounds_le : t.stats.rounds ≤ s.stats.rounds + rounds

namespace Session.Leads

variable {P : Prop} {n k : Nat} {s t u : Session}

/-- Steps without a merge and without a round. -/
theorem quiet (h : Rewrites [] s.program t.program) (hcse : t.stats.cse = s.stats.cse)
    (hrounds : t.stats.rounds = s.stats.rounds) : s.Leads P 0 t :=
  ⟨⟨[], h, hcse, fun hne => absurd rfl hne⟩, Nat.le_of_eq hrounds⟩

theorem refl (s : Session) : s.Leads P 0 s := .quiet (.refl _) rfl rfl

theorem trans (h : s.Leads P n t) (h' : t.Leads P k u) : s.Leads P (n + k) u := by
  obtain ⟨⟨ms, hms, hcse, hP⟩, hrounds⟩ := h
  obtain ⟨⟨ms', hms', hcse', hP'⟩, hrounds'⟩ := h'
  refine ⟨⟨ms ++ ms', hms.trans hms', ?_, fun hne => ?_⟩, by omega⟩
  · rw [List.length_append]
    omega
  · by_cases hnil : ms = []
    · exact hP' (by simpa [hnil] using hne)
    · exact hP hnil

theorem mono {P' : Prop} (h : s.Leads P n t) (hP : P → P') (hnk : n ≤ k) : s.Leads P' k t := by
  obtain ⟨ms, hms, hcse, hne⟩ := h.path
  exact ⟨⟨ms, hms, hcse, fun h => hP (hne h)⟩, Nat.le_trans h.rounds_le (Nat.add_le_add_left hnk _)⟩

theorem wellFormed (h : s.Leads P n t) (hs : s.program.WellFormed) : t.program.WellFormed := by
  obtain ⟨ms, hms, -⟩ := h.path
  exact hms.wellFormed hs

theorem onward (h : s.Leads P n t) (hs : s.program.WellFormed) {l : List InstrId}
    (hl : s.program.Onward l) : t.program.Onward l := by
  obtain ⟨ms, hms, -⟩ := h.path
  exact hms.onward hs hl

end Session.Leads

/-- From a well-formed program the pass ends without a fault, having done nothing but rewriting
steps in at most the given number of rounds, without a merge unless `merging` holds. -/
def Pass.Safe {α : Type} (merging : Prop) (rounds : Nat) (m : Pass α) : Prop :=
  ∀ s, s.program.WellFormed → m.Succeeds s fun _ t => s.Leads merging rounds t

namespace Pass.Safe

variable {α β : Type} {P : Prop} {n k : Nat}

theorem pure (a : α) : Safe P 0 (pure a : Pass α) := fun s _ => .refl s

theorem bind {m : Pass α} {f : α → Pass β} (hm : Safe P n m) (hf : ∀ a, Safe P k (f a)) :
    Safe P (n + k) (m >>= f) := by
  intro s hs
  rw [Act.Succeeds, Act.ensures_bind]
  refine (hm s hs).mono fun a t ht => ?_
  exact (hf a t (ht.wellFormed hs)).mono fun _ _ hu => ht.trans hu

/-- One pass after another, where neither is a round of the walk. -/
theorem seq {m : Pass α} {f : α → Pass β} (hm : Safe P 0 m) (hf : ∀ a, Safe P 0 (f a)) :
    Safe P 0 (m >>= f) :=
  hm.bind hf

theorem mono {P' : Prop} {m : Pass α} (hm : Safe P n m) (hP : P → P') (hnk : n ≤ k) :
    Safe P' k m :=
  fun s hs => (hm s hs).mono fun _ _ ht => ht.mono hP hnk

theorem get : Safe P 0 (get : Pass Session) := fun s _ => .refl s

theorem program : Safe P 0 Pass.program := fun s _ => .refl s

theorem log (r : LogRecord) : Safe P 0 (Pass.log r) := fun _ _ => .quiet (.refl _) rfl rfl

theorem logChange (message pass : String) (b : BlockRef) (v : Value)
    (more : List (String × String)) : Safe P 0 (Pass.logChange message pass b v more) :=
  program.seq fun _ => log _

/-- Counting anything but merges and rounds. -/
theorem count {f : Stats → Stats} (hcse : ∀ c, (f c).cse = c.cse)
    (hrounds : ∀ c, (f c).rounds = c.rounds) : Safe P 0 (Pass.count f) :=
  fun s _ => .quiet (.refl _) (hcse s.stats) (hrounds s.stats)

/-- An edit that is a sequence of steps without a merge. -/
theorem edit {e : Edit α}
    (h : ∀ p, p.WellFormed → e.Succeeds p fun _ q => Rewrites [] p q) : Safe P 0 (Pass.edit e) := by
  intro s hs
  rw [Act.Succeeds, Pass.ensures_edit]
  exact (h s.program hs).mono fun _ q hq => .quiet hq rfl rfl

end Pass.Safe

/-! ### Simplifications -/

section Simplifications

variable {p : Program}

/-- What became of an instruction that may be dead: it was left alone, or it was erased. -/
theorem succeeds_dce (i : InstrId) (p : Program) :
    (dce i).Succeeds p fun dead q =>
      dead = false ∧ q = p ∨ dead = true ∧ p.IsDead i ∧ q = p.detach i := by
  unfold Act.Succeeds Act.Ensures
  rw [Program.dce_run]
  by_cases hdead : p.IsDead i
  · rw [if_pos hdead]
    exact .inr ⟨rfl, hdead, rfl⟩
  · rw [if_neg hdead]
    exact .inl ⟨rfl, rfl⟩

theorem Program.IsDead.rewrites {i : InstrId} (h : p.IsDead i) : Rewrites [] p (p.detach i) :=
  (Rewrites.refl p).change (.erase i h.unused)

/-- Erasing a dead instruction is a step, if it is one at all. -/
theorem succeeds_dce_rewrites (i : InstrId) (p : Program) :
    (dce i).Succeeds p fun _ q => Rewrites [] p q := by
  refine (succeeds_dce i p).mono fun dead q hq => ?_
  rcases hq with ⟨-, rfl⟩ | ⟨-, hdead, rfl⟩
  · exact .refl q
  · exact hdead.rewrites

/-- Folding makes a constant, puts it for the instruction and erases the instruction. -/
theorem Program.rewrites_fold (p : Program) (i : InstrId) (c : Const) :
    Rewrites [] p (p.fold i c) := by
  have hne : Value.instr i ≠ .const p.consts.size := fun heq => by cases heq
  have huses := usesOf_redirect_self { p with consts := p.consts.push c } hne
  exact (((Rewrites.refl p).change (.constant c)).change
    (.substitute (.instr i) p.consts.size)).change (.erase i huses)

theorem succeeds_constFold (i : InstrId) (p : Program) :
    (constFold i).Succeeds p fun _ q => q = p ∨ ∃ c, foldedConst? p i = some c ∧ q = p.fold i c := by
  unfold Act.Succeeds Act.Ensures
  cases hc : foldedConst? p i with
  | none =>
    rw [Program.constFold_run_none hc]
    exact .inl rfl
  | some c =>
    rw [Program.constFold_run hc]
    exact .inr ⟨c, rfl, rfl⟩

theorem succeeds_constFold_rewrites (i : InstrId) (p : Program) :
    (constFold i).Succeeds p fun _ q => Rewrites [] p q := by
  refine (succeeds_constFold i p).mono fun _ q hq => ?_
  rcases hq with rfl | ⟨c, -, rfl⟩
  · exact .refl q
  · exact p.rewrites_fold i c

/-- The first operand of the first of two siblings is a value. -/
theorem Program.Coherent.head_of_siblings (h : p.Coherent) {i a b : InstrId}
    (hsib : siblings? p i = some (a, b)) :
    ∃ v, (p.instr a).operands.head? = some (some v) := by
  obtain ⟨-, hne, -⟩ := operands_of_siblings hsib
  obtain ⟨c, hc⟩ := h.exists_block hne
  cases hops : (p.instr a).operands with
  | nil => exact absurd hops hne
  | cons v rest =>
    obtain ⟨w, rfl, -⟩ := h.usable a c hc v (by simp [hops])
    exact ⟨w, rfl⟩

/-- Replacing the first operand, where there is one. -/
theorem succeeds_setOperand_zero {b : InstrId} (hb : (p.instr b).operands ≠ []) (v : Value) :
    (setOperand b 0 (some v)).Succeeds p fun _ q => q = p.replaceOperand ⟨b, 0⟩ v := by
  obtain ⟨w, rest, hops⟩ := List.exists_cons_of_ne_nil hb
  unfold setOperand operandAt
  simp only [Act.Succeeds, Act.ensures_bind, Act.ensures_discard, Act.ensures_get, hops]
  exact rfl

/-- Siblings are in place. -/
theorem Program.Coherent.usable_of_siblings (h : p.Coherent) {i a b : InstrId}
    (hsib : siblings? p i = some (a, b)) :
    ∃ c, (p.instr a).place = .inBlock c ∧ (p.instr a).ty.isVoid = false := by
  obtain ⟨hops, -⟩ := siblings?_eq_some hsib
  obtain ⟨d, hd⟩ := h.exists_block (i := i) (by simp [hops])
  obtain ⟨_, hw, hu⟩ := h.usable i d hd (some (.instr a)) (by simp [hops])
  cases hw
  obtain ⟨c, hc, -, hty⟩ := hu
  exact ⟨c, hc, hty⟩

/-- **Merging is a merge of the operands of the value,** after which the first operand is erased if nobody
uses it, and the former operand of the second if it is dead. -/
theorem succeeds_cse_at (v : Value) (h : p.WellFormed) :
    (cse (some v)).Succeeds p fun merged q => merged = false ∧ q = p ∨
      merged = true ∧ ∃ m : SiblingMerge, m.before = p ∧ m.Fits ∧ v = .instr m.user ∧
        (q = m.outcome ∨ ∃ t, some (.instr t) ∈ (p.instr m.second).operands ∧
          m.outcome.IsDead t ∧ q = m.outcome.detach t) := by
  cases v with
  | instr i =>
    unfold cse
    rw [Act.Succeeds, Act.ensures_bind, Act.ensures_get]
    split
    · exact .inl ⟨rfl, rfl⟩
    · next a b hsib =>
      obtain ⟨w, hw⟩ := h.head_of_siblings hsib
      obtain ⟨c, hc, -⟩ := h.usable_of_siblings hsib
      obtain ⟨-, -, hb⟩ := operands_of_siblings hsib
      have hb' : ((p.redirect (.instr b) w).instr b).operands ≠ [] := by
        rw [← List.length_pos_iff, Program.length_operands_redirect]
        exact List.length_pos_iff.mpr hb
      let m : SiblingMerge := { before := p, second := b, value := w, user := i, first := a }
      have hfits : m.Fits := ⟨hsib, hw⟩
      have hplace : (p.instr a).isErased = false := by
        rw [Instr.isErased, hc]
        rfl
      obtain ⟨r, hr⟩ : ∃ r, erase a ((p.redirect (.instr b) w).replaceOperand ⟨b, 0⟩ w) =
          (.ok r, m.outcome) := m.erase_first_run hplace
      simp only [Act.ensures_bind, Act.ensures_get, hw, Option.join_some]
      rw [Act.ensures_of_run (Program.replaceAllUses_run _ _ _)]
      refine (succeeds_setOperand_zero hb' w).mono fun _ q hq => ?_
      subst hq
      rw [Act.ensures_discard, Act.ensures_of_run hr]
      split
      · next t hformer =>
        rw [Act.ensures_bind, Act.ensures_discard]
        refine (succeeds_dce t m.outcome).mono fun _ q hq => ?_
        rcases hq with ⟨-, rfl⟩ | ⟨-, hdead, rfl⟩
        · exact .inr ⟨rfl, m, rfl, hfits, rfl, .inl rfl⟩
        · have hmem := List.mem_of_head? (Option.join_eq_some_iff.mp hformer)
          exact .inr ⟨rfl, m, rfl, hfits, rfl, .inr ⟨t, hmem, hdead, rfl⟩⟩
      · exact .inr ⟨rfl, m, rfl, hfits, rfl, .inl rfl⟩
  | _ => exact .inl ⟨rfl, rfl⟩

/-- The same, whatever the value is. -/
theorem succeeds_cse (v : Value) (h : p.WellFormed) :
    (cse (some v)).Succeeds p fun merged q => merged = false ∧ q = p ∨
      merged = true ∧ ∃ m : SiblingMerge, m.before = p ∧ m.Fits ∧
        (q = m.outcome ∨ ∃ t, m.outcome.IsDead t ∧ q = m.outcome.detach t) := by
  refine (succeeds_cse_at v h).mono fun merged q hq => ?_
  rcases hq with hq | ⟨hmerged, m, hbefore, hfits, -, hq⟩
  · exact .inl hq
  · refine .inr ⟨hmerged, m, hbefore, hfits, hq.imp_right ?_⟩
    rintro ⟨t, -, hdead, rfl⟩
    exact ⟨t, hdead, rfl⟩

theorem SiblingMerge.Fits.rewrites {m : SiblingMerge} (h : m.Fits) :
    Rewrites [m.toMerge] m.before m.outcome := by
  have hmerged : Rewrites [m.toMerge] m.before m.after := (Rewrites.refl m.before).merge h.valid
  unfold SiblingMerge.outcome
  split
  · next hfree => exact hmerged.change (.erase m.first hfree)
  · exact hmerged

theorem succeeds_cse_rewrites (v : Value) (h : p.WellFormed) :
    (cse (some v)).Succeeds p fun merged q =>
      ∃ ms, Rewrites ms p q ∧ ms.length = merged.toNat := by
  refine (succeeds_cse v h).mono fun merged q hq => ?_
  rcases hq with ⟨rfl, rfl⟩ | ⟨rfl, m, rfl, hfits, hq⟩
  · exact ⟨[], .refl q, rfl⟩
  · refine ⟨[m.toMerge], ?_, rfl⟩
    rcases hq with rfl | ⟨t, hdead, rfl⟩
    · exact hfits.rewrites
    · exact hfits.rewrites.trans hdead.rewrites

end Simplifications

/-! ### The walk -/

section Walk

variable {s : Session}

/-- The last part of a step: a merge, and its entry in the counters. -/
theorem safe_countedMerge (b : BlockRef) (v : Value) (folded : Bool) :
    Pass.Safe True 0 (do
      let merged ← Pass.edit (cse (some v))
      if merged then
        Pass.count fun c => { c with cse := c.cse + 1 }
        Pass.logChange "merged sibling operands" "cse" b v []
      return folded || merged) := by
  intro s hs
  rw [Act.Succeeds, Act.ensures_bind, Pass.ensures_edit]
  refine (succeeds_cse_rewrites v hs).mono fun merged q hq => ?_
  obtain ⟨ms, hms, hlength⟩ := hq
  cases merged with
  | false =>
    exact ⟨⟨ms, hms, congrArg (s.stats.cse + ·) hlength.symm, fun _ => trivial⟩, Nat.le_refl _⟩
  | true =>
    dsimp only
    rw [if_pos rfl, Act.ensures_bind, Pass.ensures_count]
    have hcounted : s.Leads True 0 { s with
        program := q, stats := { s.stats with cse := s.stats.cse + 1 } } :=
      ⟨⟨ms, hms, congrArg (s.stats.cse + ·) hlength.symm, fun _ => trivial⟩, Nat.le_refl _⟩
    refine (Pass.Safe.seq (.logChange _ _ b v _) (fun _ => .pure _) _ ?_).mono
      fun _ _ ht => hcounted.trans ht
    exact hms.wellFormed hs

/-- One step of the walk. -/
theorem safe_visitInstr (b : BlockRef) (i : InstrId) : Pass.Safe True 0 (visitInstr b i) := by
  unfold visitInstr
  refine Pass.Safe.program.seq fun p => ?_
  split
  · exact .pure false
  refine Pass.Safe.seq (.edit fun p _ => succeeds_dce_rewrites i p) fun dead => ?_
  split
  · refine Pass.Safe.seq (.count (fun _ => rfl) fun _ => rfl) fun _ => ?_
    exact Pass.Safe.seq (.logChange _ _ _ _ _) fun _ => .pure true
  refine Pass.Safe.seq (.edit fun p _ => succeeds_constFold_rewrites i p) fun v => ?_
  dsimp only
  split
  · refine Pass.Safe.seq (.count (fun _ => rfl) fun _ => rfl) fun _ => ?_
    refine Pass.Safe.program.seq fun q => ?_
    exact Pass.Safe.seq (.logChange _ _ _ _ _) fun _ => safe_countedMerge b v _
  · exact safe_countedMerge b v _

/-- Fewer instructions stand behind a later place. -/
theorem length_filter_le_lt {l : List Nat} {i n : Nat} (hi : i ∈ l) (hlt : i < n) :
    (l.filter (n ≤ ·)).length < (l.filter (i ≤ ·)).length := by
  have hsub : l.filter (n ≤ ·) = (l.filter (i ≤ ·)).filter (n ≤ ·) := by
    rw [List.filter_filter]
    refine List.filter_congr fun j _ => ?_
    rw [Bool.eq_iff_iff]
    simp only [Bool.and_eq_true, decide_eq_true_eq]
    exact ⟨fun hj => ⟨hj, Nat.le_trans (Nat.le_of_lt hlt) hj⟩, And.left⟩
  rw [hsub, List.length_filter_lt_length_iff_exists]
  refine ⟨i, List.mem_filter.mpr ⟨hi, by simp⟩, ?_⟩
  simpa using hlt

/-- What every step of a walk keeps: a relation between the states before and after it, which knows
whether a change was reported. -/
structure Session.WalkRelation (R : Bool → Session → Session → Prop) : Prop where
  /-- Between two steps there are entries in the trace and in the log only. -/
  quiet : ∀ {s t : Session}, t.program = s.program → t.stats = s.stats → R false s t
  /-- Of two parts of a walk one reports a change if they do together. -/
  trans : ∀ {c d : Bool} {s t u : Session}, R c s t → R d t u → R (c || d) s u
  /-- A step, at an instruction that was put into a block. -/
  visit : ∀ {s : Session} (b : BlockRef) {i : InstrId}, s.program.WellFormed →
    (s.program.instr i).place ≠ .detached → (visitInstr b i).Succeeds s fun changed t => R changed s t

/-- From a well-formed program the pass ends without a fault, having done nothing but rewriting
steps, and what it reports is as `R` says. -/
def Pass.Walks (R : Bool → Session → Session → Prop) (m : Pass Bool) : Prop :=
  ∀ s, s.program.WellFormed → m.Succeeds s fun changed t => s.Leads True 0 t ∧ R changed s t

namespace Session.WalkRelation

variable {R : Bool → Session → Session → Prop} (h : WalkRelation R)

include h

/-- **The walk comes to the end of its block.**  The numbers of the instructions it meets increase,
so the number of instructions from where it stands on bounds the number of its steps. -/
theorem succeeds_walkFrom (b : BlockRef) {l : List InstrId} (fuel : Nat) (cursor : Option InstrId)
    (hcursor : ∀ i, cursor = some i → i ∈ l ∧ (l.filter (i ≤ ·)).length ≤ fuel)
    (s : Session) (hs : s.program.WellFormed) (hl : s.program.Onward l)
    (hplaced : ∀ i ∈ l, (s.program.instr i).place ≠ .detached) :
    (walkFrom b fuel cursor).Succeeds s fun changed t => s.Leads True 0 t ∧ R changed s t := by
  induction fuel generalizing cursor s with
  | zero =>
    cases cursor with
    | none =>
      rw [walkFrom]
      exact ⟨.refl s, h.quiet rfl rfl⟩
    | some i =>
      obtain ⟨hi, hfuel⟩ := hcursor i rfl
      have hmem : i ∈ l.filter (i ≤ ·) := List.mem_filter.mpr ⟨hi, by simp⟩
      exact absurd (List.length_pos_of_mem hmem) (Nat.not_lt_of_le hfuel)
  | succ fuel ih =>
    cases cursor with
    | none =>
      rw [walkFrom]
      exact ⟨.refl s, h.quiet rfl rfl⟩
    | some i =>
      obtain ⟨hi, hfuel⟩ := hcursor i rfl
      rw [walkFrom, Act.Succeeds, Act.ensures_bind, Pass.ensures_program, Act.ensures_bind]
      refine ((safe_visitInstr b i s hs).and (h.visit b hs (hplaced i hi))).mono
        (fun changed t ht => ?_) fun _ _ hf => hf.1
      obtain ⟨hleads, hR⟩ := ht
      rw [Act.ensures_bind]
      refine (ih _ (fun n hn => ?_) t (hleads.wellFormed hs) (hleads.onward hs hl) fun j hj => ?_).mono
        fun more u hu => ⟨hleads.trans hu.1, h.trans hR hu.2⟩
      · -- The cursor moves on to what was behind `i` before the visit.
        obtain ⟨hnl, hlt⟩ := hl i hi n hn
        exact ⟨hnl, Nat.le_of_lt_succ (Nat.lt_of_lt_of_le (length_filter_le_lt hi hlt) hfuel)⟩
      · obtain ⟨ms, hms, -⟩ := hleads.path
        exact hms.place_ne_detached (hplaced j hj)

/-- An entry in the trace changes nothing. -/
theorem succeeds_visit {s : Session} {v : Visit} {m : Pass Bool}
    (hm : m.Succeeds { s with trace := s.trace.push v } fun changed t =>
      Session.Leads True 0 { s with trace := s.trace.push v } t ∧
        R changed { s with trace := s.trace.push v } t) :
    (do Pass.visit v; m : Pass Bool).Succeeds s fun changed t =>
      s.Leads True 0 t ∧ R changed s t := by
  have hleads : s.Leads True 0 { s with trace := s.trace.push v } := .quiet (.refl _) rfl rfl
  have hR : R false s { s with trace := s.trace.push v } := h.quiet rfl rfl
  rw [Act.Succeeds, Act.ensures_bind, Pass.ensures_visit]
  exact hm.mono fun _ t ht => ⟨hleads.trans ht.1, h.trans hR ht.2⟩

theorem walks_walkBlock (b : BlockRef) : Pass.Walks R (walkBlock b) := by
  intro s hs
  unfold walkBlock
  rw [Act.Succeeds, Act.ensures_bind, Pass.ensures_program]
  refine h.succeeds_visit (h.succeeds_walkFrom b _ _ (fun i hi => ?_) _ hs
    (.ofBlock hs.toCoherent b) fun i hi => ?_)
  · have hsize : (s.program.block b).size = (s.program.block b).instrs.length := hs.size b
    rw [hs.head] at hi
    rw [hsize]
    exact ⟨List.mem_of_head? hi, List.length_filter_le _ _⟩
  · rw [(hs.listed b i).mp hi]
    exact fun heq => by cases heq

theorem walks_anyOf {α : Type} {f : α → Pass Bool} (hf : ∀ a, Pass.Walks R (f a)) (l : List α) :
    Pass.Walks R (Pass.anyOf f l) := by
  induction l with
  | nil => exact fun s _ => ⟨.refl s, h.quiet rfl rfl⟩
  | cons a rest ih =>
    intro s hs
    rw [Pass.anyOf, Act.Succeeds, Act.ensures_bind]
    refine (hf a s hs).mono fun _ t ht => ?_
    rw [Act.ensures_bind]
    exact (ih t (ht.1.wellFormed hs)).mono fun _ u hu => ⟨ht.1.trans hu.1, h.trans ht.2 hu.2⟩

theorem walks_peephole (f : FuncId) : Pass.Walks R (peephole f) := by
  intro s hs
  unfold peephole
  rw [Act.Succeeds, Act.ensures_bind, Pass.ensures_program]
  exact h.walks_anyOf h.walks_walkBlock _ s hs

theorem walks_walkFunc (f : FuncId) : Pass.Walks R (walkFunc f) := by
  intro s hs
  unfold walkFunc
  rw [Act.Succeeds, Act.ensures_bind, Pass.ensures_program]
  exact h.succeeds_visit (h.walks_peephole f _ hs)

/-- **The rule for the walk:** what every step keeps, the whole walk keeps. -/
theorem walks_walk : Pass.Walks R walk := by
  intro s hs
  unfold walk
  rw [Act.Succeeds, Act.ensures_bind, Pass.ensures_program]
  exact h.walks_anyOf h.walks_walkFunc _ s hs

end Session.WalkRelation

/-- What every change of the walk keeps.  A step makes up to two changes, and counts each of them. -/
structure Session.StepRelation (R : Bool → Session → Session → Prop) : Prop where
  /-- Between two changes there are entries in the trace and in the log only. -/
  quiet : ∀ {s t : Session}, t.program = s.program → t.stats = s.stats → R false s t
  /-- Of two parts of a walk one reports a change if they do together. -/
  trans : ∀ {c d : Bool} {s t u : Session}, R c s t → R d t u → R (c || d) s u
  /-- A dead instruction is erased. -/
  erase : ∀ {s t : Session} {i : InstrId}, s.program.WellFormed →
    (s.program.instr i).place ≠ .detached → s.program.IsDead i → t.program = s.program.detach i →
    t.stats = { s.stats with erased := s.stats.erased + 1 } → R true s t
  /-- A constant takes the place of an instruction. -/
  fold : ∀ {s t : Session} {i : InstrId} {c : Const}, s.program.WellFormed →
    (s.program.instr i).place ≠ .detached → foldedConst? s.program i = some c →
    t.program = s.program.fold i c →
    t.stats = { s.stats with folded := s.stats.folded + 1 } → R true s t
  /-- Operands are merged, after which the former operand of the second may be dead. -/
  merge : ∀ {s t : Session} {m : SiblingMerge}, s.program.WellFormed → m.before = s.program → m.Fits →
    (t.program = m.outcome ∨ ∃ d, m.outcome.IsDead d ∧ t.program = m.outcome.detach d) →
    t.stats = { s.stats with cse := s.stats.cse + 1 } → R true s t

namespace Session.StepRelation

variable {R : Bool → Session → Session → Prop} (h : StepRelation R)

include h

/-- The last part of a step: a merge, and its entry in the counters. -/
theorem succeeds_countedMerge (b : BlockRef) (v : Value) (folded : Bool) (hs : s.program.WellFormed) :
    Act.Succeeds (do
      let merged ← Pass.edit (cse (some v))
      if merged then
        Pass.count fun c => { c with cse := c.cse + 1 }
        Pass.logChange "merged sibling operands" "cse" b v []
      return folded || merged) s fun changed t =>
        ∃ merged, changed = (folded || merged) ∧ R merged s t := by
  rw [Act.Succeeds, Act.ensures_bind, Pass.ensures_edit]
  refine (succeeds_cse v hs).mono fun merged q hq => ?_
  rcases hq with ⟨rfl, rfl⟩ | ⟨rfl, m, hbefore, hfits, hq⟩
  · exact ⟨false, rfl, h.quiet rfl rfl⟩
  · exact ⟨true, rfl, h.merge hs hbefore hfits hq rfl⟩

/-- A step of the walk at an instruction that was put into a block. -/
theorem succeeds_visitInstr (b : BlockRef) {i : InstrId} (hs : s.program.WellFormed)
    (hi : (s.program.instr i).place ≠ .detached) :
    (visitInstr b i).Succeeds s fun changed t => R changed s t := by
  unfold visitInstr
  rw [Act.Succeeds, Act.ensures_bind, Pass.ensures_program]
  split
  · exact h.quiet rfl rfl
  rw [Act.ensures_bind, Pass.ensures_edit]
  refine (succeeds_dce i s.program).mono fun dead q hq => ?_
  rcases hq with ⟨rfl, rfl⟩ | ⟨rfl, hdead, rfl⟩
  · dsimp only
    rw [if_neg Bool.false_ne_true, Act.ensures_bind, Pass.ensures_edit]
    cases hc : foldedConst? s.program i with
    | none =>
      rw [Act.ensures_of_run (Program.constFold_run_none hc)]
      simp only [ne_eq, not_true_eq_false, decide_false, if_false]
      refine (h.succeeds_countedMerge b (.instr i) false hs).mono fun changed t ht => ?_
      obtain ⟨merged, rfl, hmerged⟩ := ht
      exact hmerged
    | some c =>
      rw [Act.ensures_of_run (Program.constFold_run hc)]
      have hnew : Value.const s.program.consts.size ≠ .instr i := fun heq => by cases heq
      dsimp only
      rw [if_pos hnew, decide_eq_true hnew, Act.ensures_bind, Pass.ensures_count, Act.ensures_bind,
        Pass.ensures_program, Act.ensures_bind, Pass.logChange, Act.ensures_bind,
        Pass.ensures_program, Pass.ensures_log]
      refine (h.succeeds_countedMerge b _ true ((s.program.rewrites_fold i c).wellFormed hs)).mono
        fun changed t ht => ?_
      obtain ⟨merged, rfl, hmerged⟩ := ht
      exact h.trans (h.fold hs hi hc rfl rfl) hmerged
  · exact h.erase hs hi hdead rfl rfl

/-- **What every change keeps, the walk keeps.** -/
theorem walkRelation : WalkRelation R where
  quiet := h.quiet
  trans := h.trans
  visit b _ hs hi := h.succeeds_visitInstr b hs hi

end Session.StepRelation

/-- Steps are safe, whatever else they keep. -/
theorem Session.WalkRelation.trivial : Session.WalkRelation fun _ _ _ => True where
  quiet _ _ := True.intro
  trans _ _ := True.intro
  visit {s} b {i} hs _ := (safe_visitInstr b i s hs).mono fun _ _ _ => True.intro

theorem safe_peephole (f : FuncId) : Pass.Safe True 0 (peephole f) :=
  fun s hs => (Session.WalkRelation.trivial.walks_peephole f s hs).mono fun _ _ ht => ht.1

/-- The whole walk. -/
theorem safe_walk : Pass.Safe True 0 walk :=
  fun s hs => (Session.WalkRelation.trivial.walks_walk s hs).mono fun _ _ ht => ht.1

end Walk

/-! ### The sweep -/

section Sweep

variable {α : Type} {size : α → Nat}

theorem sumOf_append (l l' : List α) : sumOf size (l ++ l') = sumOf size l + sumOf size l' := by
  induction l with
  | nil => exact (Nat.zero_add _).symm
  | cons a l ih =>
    rw [List.cons_append, sumOf, sumOf, ih]
    omega

theorem sumOf_le {g k : α → Nat} {l : List α} (h : ∀ a ∈ l, g a ≤ k a) : sumOf g l ≤ sumOf k l := by
  induction l with
  | nil => exact Nat.le_refl 0
  | cons a l ih =>
    rw [List.forall_mem_cons] at h
    exact Nat.add_le_add h.1 (ih h.2)

theorem sumOf_const (n : Nat) (l : List α) : sumOf (fun _ => n) l = n * l.length := by
  induction l with
  | nil => rfl
  | cons a l ih => rw [sumOf, ih, List.length_cons, Nat.mul_succ, Nat.add_comm]

theorem length_flatMap_eq_sumOf {β : Type} (f : α → List β) (l : List α) :
    (l.flatMap f).length = sumOf (fun a => (f a).length) l := by
  induction l with
  | nil => rfl
  | cons a l ih => rw [List.flatMap_cons, List.length_append, ih, sumOf]

/-- If no summand grows and one shrinks, so does the sum. -/
theorem sumOf_add_le {g k : α → Nat} {l : List α} {a : α} {n : Nat} (h : ∀ c ∈ l, g c ≤ k c)
    (ha : a ∈ l) (hlt : g a + n ≤ k a) : sumOf g l + n ≤ sumOf k l := by
  induction l with
  | nil => cases ha
  | cons c l ih =>
    rw [List.forall_mem_cons] at h
    rw [sumOf, sumOf]
    rcases List.mem_cons.mp ha with rfl | ha
    · have hrest := sumOf_le h.2
      omega
    · have hrest := ih h.2 ha
      have hfirst := h.1
      omega

theorem sumOf_set (l : List α) (i : Nat) (hi : i < l.length) (a : α) :
    sumOf size (l.set i a) + size l[i] = sumOf size l + size a := by
  induction l generalizing i with
  | nil => exact absurd hi (Nat.not_lt_zero i)
  | cons b l ih =>
    cases i with
    | zero =>
      rw [List.set_cons_zero, List.getElem_cons_zero, sumOf, sumOf]
      omega
    | succ i =>
      have hl := ih i (Nat.lt_of_succ_lt_succ hi)
      rw [List.set_cons_succ, List.getElem_cons_succ, sumOf, sumOf]
      omega

theorem sumOf_replicate {a : α} (ha : size a = 0) (n : Nat) :
    sumOf size (List.replicate n a) = 0 := by
  induction n with
  | zero => rfl
  | succ n ih => rw [List.replicate_succ, sumOf, ha, ih]

/-- The sum over a table when one cell changes. -/
theorem Table.sumOf_modify [Inhabited α] (size : α → Nat) (hdefault : size default = 0)
    (t : Table α) (i : Nat) (f : α → α) : sumOf size (t.modify i f).cells.toList + size (t.get i) =
      sumOf size t.cells.toList + size (f (t.get i)) := by
  unfold Table.modify Table.set
  split
  · next hi =>
    have hget : t.get i = t.cells.toList[i] := by
      simp [Table.get, hi]
    rw [hget, Array.toList_setIfInBounds]
    exact sumOf_set t.cells.toList i hi _
  · next hi =>
    have hget : t.get i = default := by
      simp [Table.get, Nat.le_of_not_lt hi]
    rw [hget, Array.toList_push, Array.toList_append, Array.toList_replicate, sumOf_append,
      sumOf_append, sumOf_replicate hdefault, hdefault]
    rfl

/-- The slots of an erased instruction are gone. -/
theorem slotCount_detach (p : Program) (i : InstrId) :
    (p.detach i).slotCount + (p.instr i).operands.length = p.slotCount := by
  have hinstrs : (p.detach i).instrs = (p.instrs.modify i fun x => { x with operands := [] }).modify
      i fun x => { x with place := .erased } := by
    have hdropped : (p.dropOperands i).instrs =
        p.instrs.modify i fun x => { x with operands := [] } := by
      obtain ⟨us, heq⟩ := Program.exists_unregisterFrom i 0 (p.instr i).operands p
      rw [Program.dropOperands, heq]
      rfl
    dsimp only [Program.detach]
    rw [← hdropped]
    split
    · exact (Program.relinked_unlink _ _ _).instrs_eq
    · rfl
  unfold Program.slotCount
  rw [hinstrs]
  have houter := Table.sumOf_modify (fun x : Instr => x.operands.length) rfl
    (p.instrs.modify i fun x => { x with operands := [] }) i
    fun x => { x with place := .erased }
  have hinner := Table.sumOf_modify (fun x : Instr => x.operands.length) rfl p.instrs i
    fun x => { x with operands := [] }
  have hlength : (p.instr i).operands.length = (p.instrs.get i).operands.length := rfl
  dsimp only [List.length_nil] at hinner houter
  omega

/-- What every step of a sweep keeps: a property of the program, of the queue and of the number of
instructions erased so far. -/
structure Program.SweepInvariant (J : Program → List InstrId → Nat → Prop) : Prop where
  /-- An instruction that is not dead is passed over. -/
  skip : ∀ {q i queue n}, J q (i :: queue) n → ¬ q.IsDead i → J q queue n
  /-- A dead one is in a block. -/
  inBlock : ∀ {q i queue n}, J q (i :: queue) n → q.IsDead i → ∃ b, (q.instr i).place = .inBlock b
  /-- It is erased, and its operands line up. -/
  erase : ∀ {q i queue n}, J q (i :: queue) n → q.IsDead i →
    J (q.detach i) (queue ++ (q.instr i).operandInstrs) (n + 1)

/-- **The queue runs empty.**  Every instruction that lines up again stands for a slot that is
gone. -/
theorem Program.SweepInvariant.succeeds {J : Program → List InstrId → Nat → Prop}
    (h : Program.SweepInvariant J) (fuel : Nat) (queue : List InstrId) (n : Nat) (s : Session)
    (hs : J s.program queue n) (hfuel : queue.length + s.program.slotCount ≤ fuel) :
    (sweepFrom fuel queue).Succeeds s fun k t => J t.program [] (n + k) ∧ t.stats = s.stats := by
  induction fuel generalizing queue n s with
  | zero =>
    obtain rfl : queue = [] := List.length_eq_zero_iff.mp (by omega)
    rw [sweepFrom]
    exact ⟨hs, rfl⟩
  | succ fuel ih =>
    cases queue with
    | nil =>
      rw [sweepFrom]
      exact ⟨hs, rfl⟩
    | cons i queue =>
      rw [List.length_cons] at hfuel
      rw [sweepFrom, Act.Succeeds, Act.ensures_bind, Pass.ensures_program, Act.ensures_bind,
        Pass.ensures_edit]
      have hrun := Program.dce_run i s.program
      by_cases hdead : s.program.IsDead i
      · rw [if_pos hdead] at hrun
        obtain ⟨b, hb⟩ := h.inBlock hs hdead
        have hblock : (s.program.instr i).place.block? = some b := by
          rw [hb]
          rfl
        rw [Act.ensures_of_run hrun, if_pos rfl, hblock]
        simp only [Act.ensures_bind, Act.ensures_demand_some, Pass.logChange,
          Pass.ensures_program, Pass.ensures_log]
        refine (ih (queue ++ (s.program.instr i).operandInstrs) (n + 1) _ (h.erase hs hdead) ?_).mono
          fun k t ht => ?_
        · -- The slots of `i` are gone, and no more instructions than these line up.
          have hgone := slotCount_detach s.program i
          have hlength : (s.program.instr i).operandInstrs.length ≤
              (s.program.instr i).operands.length := List.length_filterMap_le _ _
          rw [List.length_append]
          dsimp only
          omega
        · rw [Nat.add_assoc, Nat.add_comm 1 k] at ht
          exact ht
      · rw [if_neg hdead] at hrun
        rw [Act.ensures_of_run hrun]
        exact ih queue n s (h.skip hs hdead) (by omega)

/-- What the sweep relies on: `I` holds of the program, and `W` of the instructions that wait. -/
structure Program.Sweepable (I : Program → Prop) (W : Program → InstrId → Prop) : Prop where
  /-- Dead instructions that wait may be erased. -/
  detach : ∀ {p i}, I p → W p i → p.IsDead i → I (p.detach i)
  /-- They are in a block. -/
  inBlock : ∀ {p i}, I p → W p i → p.IsDead i → ∃ b, (p.instr i).place = .inBlock b
  /-- Their operands may wait. -/
  operands : ∀ {p i j}, I p → W p i → p.IsDead i → j ∈ (p.instr i).operandInstrs → W p j
  /-- The others may go on waiting. -/
  waiting : ∀ {p i j}, I p → p.IsDead i → W p j → W (p.detach i) j

section Queue

variable {I : Program → Prop} {W : Program → InstrId → Prop} (h : Program.Sweepable I W)

include h

theorem Program.Sweepable.invariant :
    Program.SweepInvariant fun q queue _ => I q ∧ ∀ i ∈ queue, W q i where
  skip hq _ := ⟨hq.1, fun j hj => hq.2 j (List.mem_cons_of_mem _ hj)⟩
  inBlock hq hdead := h.inBlock hq.1 (hq.2 _ List.mem_cons_self) hdead
  erase {q i queue n} hq hdead := by
    have hi := hq.2 i List.mem_cons_self
    refine ⟨h.detach hq.1 hi hdead, fun j hj => h.waiting hq.1 hdead ?_⟩
    rcases List.mem_append.mp hj with hj | hj
    · exact hq.2 j (List.mem_cons_of_mem i hj)
    · exact h.operands hq.1 hi hdead hj

/-- Sweeping a function whose instructions may wait. -/
theorem succeeds_sweep (f : FuncId) (s : Session) (hs : I s.program)
    (hqueue : ∀ i ∈ s.program.funcInstrs f, W s.program i) :
    (sweep f).Succeeds s fun _ t => I t.program ∧ t.stats.cse = s.stats.cse ∧
      t.stats.rounds = s.stats.rounds := by
  unfold sweep
  rw [Act.Succeeds, Act.ensures_bind, Pass.ensures_program, Act.ensures_bind]
  refine (h.invariant.succeeds _ _ 0 s ⟨hs, hqueue⟩ (Nat.le_refl _)).mono fun n t ht => ?_
  obtain ⟨⟨hprogram, -⟩, hstats⟩ := ht
  have hcse : t.stats.cse = s.stats.cse := congrArg Stats.cse hstats
  have hrounds : t.stats.rounds = s.stats.rounds := congrArg Stats.rounds hstats
  exact ⟨hprogram, hcse, hrounds⟩

end Queue

/-- The instructions among the operands are those that a slot holds. -/
theorem Instr.mem_operandInstrs {x : Instr} {j : InstrId} :
    j ∈ x.operandInstrs ↔ some (.instr j) ∈ x.operands := by
  unfold operandInstrs
  rw [List.mem_filterMap]
  constructor
  · rintro ⟨v, hv, hvj⟩
    obtain ⟨w, rfl, hwj⟩ := Option.bind_eq_some_iff.mp hvj
    cases w with
    | instr d =>
      obtain rfl : d = j := Option.some.inj hwj
      exact hv
    | _ => cases hwj
  · exact fun hj => ⟨_, hj, rfl⟩

/-- They are in the function of their user, if that is in a block. -/
theorem Program.Coherent.func_of_mem {p : Program} (h : p.Coherent) {i d : InstrId} {b : BlockRef}
    (hi : (p.instr i).place = .inBlock b) (hd : some (.instr d) ∈ (p.instr i).operands) :
    ∃ c, (p.instr d).place = .inBlock c ∧ c.func = b.func := by
  obtain ⟨w, hw, husable⟩ := h.usable i b hi _ hd
  cases hw
  obtain ⟨c, hc, hfunc, -⟩ := husable
  exact ⟨c, hc, hfunc⟩

/-- An instruction that is neither loose nor erased is in a block. -/
theorem Instr.exists_block {x : Instr} (hplace : x.isErased = false) (hx : x.place ≠ .detached) :
    ∃ b, x.place = .inBlock b := by
  cases hcase : x.place with
  | detached => exact absurd hcase hx
  | inBlock b => exact ⟨b, rfl⟩
  | erased =>
    rw [Instr.isErased, hcase] at hplace
    cases hplace

theorem Program.IsDead.exists_block {p : Program} {i : InstrId} (h : p.IsDead i)
    (hi : (p.instr i).place ≠ .detached) : ∃ b, (p.instr i).place = .inBlock b :=
  Instr.exists_block h.inPlace hi

/-- The sweep takes steps from well-formed programs, where whatever waits was once put into a
block. -/
theorem Program.WellFormed.sweepable (p : Program) : Sweepable
    (fun q => q.WellFormed ∧ Rewrites [] p q) fun q i => (q.instr i).place ≠ .detached where
  detach hq _ hi := ⟨hq.1.detach hi.unused, hq.2.trans hi.rewrites⟩
  inBlock _ hw hi := hi.exists_block hw
  operands hq hw hi hj := by
    obtain ⟨b, hb⟩ := hi.exists_block hw
    obtain ⟨c, hc, -⟩ := hq.1.func_of_mem hb (Instr.mem_operandInstrs.mp hj)
    rw [hc]
    exact fun heq => by cases heq
  waiting _ hi hw := hi.rewrites.place_ne_detached hw

theorem safe_sweep {P : Prop} (f : FuncId) : Pass.Safe P 0 (sweep f) := by
  intro s hs
  refine (succeeds_sweep (Program.WellFormed.sweepable s.program) f s ⟨hs, .refl _⟩ fun i hi => ?_).mono
    fun _ t ht => .quiet ht.1.2 ht.2.1 ht.2.2
  obtain ⟨b, hb, -⟩ := hs.mem_funcInstrs.mp hi
  rw [hb]
  exact fun heq => by cases heq

end Sweep

end Midend
