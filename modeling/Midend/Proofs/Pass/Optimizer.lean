import Midend.Proofs.Pass.ConstProp
import Midend.Proofs.Program.Printer
import Midend.Proofs.Source.ResolvedPrograms

/-!
# Runs of the optimizer

What holds of every run of the optimizer on a program of an accepted text, and of any number of runs
one after another, whatever the options: the run ends without a fault, the program stays well-formed
and can be printed, and all that verification can ever find is a use before a definition.  Only merges
can lead to that.

## Main definitions

* `Options.verdict`: what a run reports of the program it leaves.
* `Program.optimized`, `Program.mergesIn`: the program after consecutive runs, and the merges in them.

## Main results

* `optimize_spec`: one run from a well-formed program.
* `rewrites_optimized`: consecutive runs.
* `verify_optimized`: what verification can find afterwards.
* `optimize_verified_iff`: when a run with verification succeeds.
* `optimize_succeeds`: runs end without a fault, within their rounds, and the program can be printed.
-/

namespace Midend

/-! ### One run -/

section Passes

theorem composable_safe (P : Prop) : Pass.Composable fun n {_} m => Pass.Safe P n m where
  pure := .pure
  bind := .bind
  mono hm hnk := hm.mono id hnk
  get := .get
  program := .program
  log := .log
  round _ _ := ⟨⟨[], .refl _, rfl, fun hne => absurd rfl hne⟩, Nat.le_refl _⟩

/-- All passes in order; merges happen in the walk only. -/
theorem safe_rewritePass (o : Options) :
    Pass.Safe (o.peephole = true) o.maxRounds.toNat (rewritePass o) :=
  (composable_safe _).rewriting safe_constProp safe_sweep fun hpeephole =>
    safe_walk.mono (fun _ => hpeephole) (Nat.le_refl 0)

/-- What a run reports of the program it leaves. -/
def Options.verdict (o : Options) (p : Program) : Except VerifyError Unit :=
  if o.verify && !p.verify.isEmpty then .error ⟨p.name, p.verify⟩ else .ok ()

theorem Options.verdict_of_ne_nil {o : Options} (ho : o.verify = true) {p : Program}
    (h : p.verify ≠ []) : o.verdict p = .error ⟨p.name, p.verify⟩ := by
  unfold verdict
  rw [if_pos]
  simpa [ho] using h

theorem Options.verdict_eq_ok_iff {o : Options} (ho : o.verify = true) {p : Program} :
    o.verdict p = .ok () ↔ p.verify = [] := by
  by_cases h : p.verify = []
  · simp [verdict, h]
  · simp [verdict_of_ne_nil ho h, h]

theorem succeeds_concludePass (o : Options) (s : Session) :
    (concludePass o).Succeeds s fun r t =>
      r = o.verdict s.program ∧ t.program = s.program ∧ t.stats = s.stats := by
  unfold concludePass Options.verdict
  rw [Act.Succeeds, Act.ensures_bind, Pass.ensures_program]
  cases hverify : o.verify with
  | false => exact ⟨rfl, rfl, rfl⟩
  | true =>
    cases hreport : s.program.verify with
    | nil => exact ⟨by simp, rfl, rfl⟩
    | cons e es => exact ⟨by simp, rfl, rfl⟩

end Passes

/-- **One run from a well-formed program.**  It ends without a fault, gets along by rewriting steps,
and reports what verification finds in the program it leaves. -/
theorem optimize_spec {p : Program} (h : p.WellFormed) (o : Options) :
    (optimize o p).1 = .ok (o.verdict (optimize o p).2.program) ∧
      Session.Leads (o.peephole = true) o.maxRounds.toNat { program := p } (optimize o p).2 := by
  have hrun : (optimizePass o).Succeeds { program := p } fun r t => r = o.verdict t.program ∧
      Session.Leads (o.peephole = true) o.maxRounds.toNat { program := p } t := by
    unfold optimizePass
    rw [Act.Succeeds, Act.ensures_bind]
    refine (safe_rewritePass o { program := p } h).mono fun _ s hs => ?_
    refine (succeeds_concludePass o s).mono fun r t ht => ?_
    obtain ⟨hr, hprogram, hstats⟩ := ht
    rw [hprogram]
    refine ⟨hr, hs.trans (.quiet ?_ ?_ ?_)⟩
    · rw [hprogram]
      exact .refl _
    · rw [hstats]
    · rw [hstats]
  obtain ⟨r, t, heq, hr, hleads⟩ := hrun.exists_eq
  have hoptimize : optimize o p = (.ok r, t) := heq
  rw [hoptimize]
  exact ⟨congrArg Except.ok hr, hleads⟩

/-! ### Runs one after another -/

namespace Program

/-- The program after runs with the given options, one after another. -/
def optimized (p : Program) : List Options → Program
  | [] => p
  | o :: os => (optimize o p).2.program.optimized os

/-- How many merges these runs count. -/
def mergesIn (p : Program) : List Options → Nat
  | [] => 0
  | o :: os => (optimize o p).2.stats.cse + (optimize o p).2.program.mergesIn os

end Program

variable {p : Program}

/-- **Runs one after another get along by rewriting steps,** with as many merges as they count, and
none where the walk is switched off. -/
theorem rewrites_optimized (h : p.WellFormed) (os : List Options) :
    ∃ ms, Rewrites ms p (p.optimized os) ∧ ms.length = p.mergesIn os ∧
      ((∀ o ∈ os, o.peephole = false) → ms = []) := by
  induction os generalizing p with
  | nil => exact ⟨[], .refl p, rfl, fun _ => rfl⟩
  | cons o os ih =>
    obtain ⟨-, hleads⟩ := optimize_spec h o
    obtain ⟨ms, hms, hcse, hpeephole⟩ := hleads.path
    obtain ⟨ms', hms', hlength, hnone⟩ := ih (hleads.wellFormed h)
    refine ⟨ms ++ ms', hms.trans hms', ?_, fun hoff => ?_⟩
    · -- A run starts to count from zero.
      rw [List.length_append, hlength, Program.mergesIn, hcse, Nat.zero_add]
    · have hfirst : ms = [] := by
        refine Classical.byContradiction fun hne => ?_
        rw [hoff o List.mem_cons_self] at hpeephole
        cases hpeephole hne
      rw [hfirst, hnone fun o ho => hoff o (List.mem_cons_of_mem _ ho), List.nil_append]

theorem Program.WellFormed.optimized (h : p.WellFormed) (os : List Options) :
    (p.optimized os).WellFormed := by
  obtain ⟨ms, hms, -⟩ := rewrites_optimized h os
  exact hms.wellFormed h

/-- Without a merge, runs keep definitions before uses. -/
theorem Program.Ordered.optimized (hord : p.Ordered) (h : p.WellFormed) {os : List Options}
    (hnone : p.mergesIn os = 0) : (p.optimized os).Ordered := by
  obtain ⟨ms, hms, hlength, -⟩ := rewrites_optimized h os
  rw [hnone] at hlength
  rw [List.eq_nil_of_length_eq_zero hlength] at hms
  exact hms.ordered (fun m hm => by cases hm) h hord

/-- Runs without the walk count no merges. -/
theorem Program.WellFormed.mergesIn_eq_zero (h : p.WellFormed) {os : List Options}
    (hoff : ∀ o ∈ os, o.peephole = false) : p.mergesIn os = 0 := by
  obtain ⟨ms, -, hlength, hnone⟩ := rewrites_optimized h os
  rw [← hlength, hnone hoff, List.length_nil]

/-! ### Programs of accepted texts -/

variable {name : String} {src : ByteArray}

/-- **After any number of runs the program is well-formed, and verification can find nothing but
uses before definitions;** without a merge it finds nothing at all. -/
theorem verify_optimized (h : Program.parse name src = .ok p) (os : List Options) :
    (p.optimized os).WellFormed ∧
      (∀ e ∈ (p.optimized os).verify, ∀ v ∈ e.2,
        ∃ block operand user, v = .usedBeforeDefined block operand user) ∧
      (p.mergesIn os = 0 → (p.optimized os).verify = []) ∧
      ((∀ o ∈ os, o.peephole = false) → p.mergesIn os = 0) := by
  obtain ⟨hp, hord⟩ := Program.wellFormed_of_parse h
  have hwf := hp.optimized os
  refine ⟨hwf, fun e he v hv => ?_, fun hnone => ?_, fun hoff => hp.mergesIn_eq_zero hoff⟩
  · exact hwf.toCoherent.usedBeforeDefined_of_mem_verify he hv
  · exact hwf.toCoherent.verify_eq_nil_iff.mpr (hord.optimized hp hnone)

/-- A text whose only merge is misplaced.  The operands of `%v` are merged, so that `%q` takes the
place of `%p` and reaches `%u`, which stands before it. -/
def crossed : ByteArray :=
  ("func @f(%a: i32) \x7b\nentry:\n    %p = add i32 %a, 1\n    %u = sub i32 %p, 5\n" ++
    "    %q = mul i32 %a, 7\n    %r = add i32 %q, 2\n    %v = cmp i32 %r, %p\n" ++
    "    call void @use(%u, %v)\n    ret void\n\x7d\n").toUTF8

theorem verify_optimized_crossed : ∃ p, Program.parse "m" crossed = .ok p ∧
    (p.optimized [{ constProp := false }]).verify ≠ [] ∧
    (∀ e ∈ (p.optimized [{ constProp := false }]).verify, ∀ v ∈ e.2,
      ∃ block operand user, v = .usedBeforeDefined block operand user) ∧
    (p.optimized [{ peephole := false }, { peephole := false }]).verify = [] := by
  obtain ⟨p, hp, hverify⟩ : ∃ p, Program.parse "m" crossed = .ok p ∧
      (!(p.optimized [{ constProp := false }]).verify.isEmpty) = true :=
    Program.exists_of_parse (by decide +kernel)
  obtain ⟨-, hform, -⟩ := verify_optimized hp [{ constProp := false }]
  obtain ⟨-, -, hnone, hoff⟩ := verify_optimized hp [{ peephole := false }, { peephole := false }]
  exact ⟨p, hp, by simpa using hverify, hform, hnone (hoff (by simp))⟩

/-- **With verification, a run on the program of an accepted text succeeds just if definitions
precede uses in the program it leaves.**  Merges that are not misplaced see to that, and a merge
that is misplaced breaks it where it happens. -/
theorem optimize_verified_iff (h : Program.parse name src = .ok p) {o : Options}
    (ho : o.verify = true) :
    ((optimize o p).1 = .ok (.ok ()) ↔ (optimize o p).2.program.Ordered) ∧
      (¬ (optimize o p).2.program.Ordered → (optimize o p).1 =
        .ok (.error ⟨(optimize o p).2.program.name, (optimize o p).2.program.verify⟩)) ∧
      ∃ ms, Rewrites ms p (optimize o p).2.program ∧ ms.length = (optimize o p).2.stats.cse ∧
        (∀ m ∈ ms, m.before.Ordered → (m.after.Ordered ↔ ¬ m.Misplaced)) ∧
        ((∀ m ∈ ms, ¬ m.Misplaced) → (optimize o p).2.program.Ordered) := by
  obtain ⟨hp, hord⟩ := Program.wellFormed_of_parse h
  obtain ⟨hresult, hleads⟩ := optimize_spec hp o
  have hnil := (hleads.wellFormed hp).toCoherent.verify_eq_nil_iff
  obtain ⟨ms, hms, hcse, -⟩ := hleads.path
  refine ⟨?_, fun hbad => ?_, ms, hms, ?_, fun m hm hbefore => ?_, fun hplaced => ?_⟩
  · rw [hresult, ← hnil, ← Options.verdict_eq_ok_iff ho, Except.ok.injEq]
  · rw [hresult, Options.verdict_of_ne_nil ho (mt hnil.mp hbad)]
  · rw [hcse, Nat.zero_add]
  · obtain ⟨hbefore', hvalid⟩ := hms.of_mem hp hm
    exact Merge.ordered_iff hvalid hbefore'.exact hbefore
  · exact hms.ordered hplaced hp hord

theorem optimize_verified_iff_crossed : ∃ p, Program.parse "m" crossed = .ok p ∧
    (optimize { verify := true, constProp := false } p).1 =
      .ok (.error ⟨"m", [("f", [.usedBeforeDefined "entry" "%q" "%u"])]⟩) ∧
    ¬ (optimize { verify := true, constProp := false } p).2.program.Ordered := by
  obtain ⟨p, hp, hfound⟩ : ∃ p, Program.parse "m" crossed = .ok p ∧
      ((optimize { verify := true, constProp := false } p).2.program.name == "m" &&
        (optimize { verify := true, constProp := false } p).2.program.verify ==
          [("f", [.usedBeforeDefined "entry" "%q" "%u"])] &&
        !((optimize { verify := true, constProp := false } p).1.toOption.any Except.isOk)) = true :=
    Program.exists_of_parse (by decide +kernel)
  simp only [Bool.and_eq_true, beq_iff_eq, Bool.not_eq_true'] at hfound
  obtain ⟨⟨hname, hverify⟩, hfails⟩ := hfound
  obtain ⟨hiff, herror, -⟩ :=
    optimize_verified_iff hp (o := { verify := true, constProp := false }) rfl
  have hbad : ¬ (optimize { verify := true, constProp := false } p).2.program.Ordered := by
    intro hord
    rw [hiff.mpr hord] at hfails
    cases hfails
  refine ⟨p, hp, ?_, hbad⟩
  rw [herror hbad, hname, hverify]

/-- **Every run ends without a fault and within its rounds, and the program it leaves can be
printed,** however many runs went before. -/
theorem optimize_succeeds (h : Program.parse name src = .ok p) (os : List Options) {o : Options}
    (ho : 1 ≤ o.maxRounds) :
    ∃ r s, optimize o (p.optimized os) = (.ok r, s) ∧ (s.stats.rounds : Int) ≤ o.maxRounds ∧
      ∃ t, s.program.text = .ok t := by
  have hp := (Program.wellFormed_of_parse h).1.optimized os
  obtain ⟨hresult, hleads⟩ := optimize_spec hp o
  refine ⟨_, (optimize o (p.optimized os)).2, Prod.ext hresult rfl, ?_,
    (hleads.wellFormed hp).toCoherent.exists_text⟩
  have hrounds := hleads.rounds_le
  rw [Nat.zero_add] at hrounds
  omega

theorem optimize_succeeds_crossed : ∃ p, Program.parse "m" crossed = .ok p ∧
    ∃ r s, optimize { maxRounds := 1 } (p.optimized [{}, { verify := true }]) = (.ok r, s) ∧
      (s.stats.rounds : Int) ≤ 1 ∧ ∃ t, s.program.text = .ok t := by
  obtain ⟨p, hp, -⟩ : ∃ p, Program.parse "m" crossed = .ok p ∧ true = true :=
    Program.exists_of_parse (f := fun _ => true) (by decide +kernel)
  exact ⟨p, hp, optimize_succeeds hp [{}, { verify := true }] (o := { maxRounds := 1 }) (by decide)⟩

end Midend
