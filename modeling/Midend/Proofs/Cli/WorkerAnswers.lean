import Midend.Cli.Worker
import Midend.Proofs.Cache.Keys
import Midend.Proofs.Cache.StoreMap
import Midend.Proofs.Pass.ProgramName

/-!
# What a worker answers

Without a cache a worker answers with what it computes from its file.  That depends on the text, on the
options and on how the result is shown, and not on the name of the file: what is computed for one file is
right for every other one with the same text, if verifying does not tell them apart.

So an entry of the cache that was computed for the same key answers for the file, if keys tell texts and
options apart.

## Main definitions

* `Options.Alike`: options that differ in verifying only.
* `Result.Agrees`: two results show the same.
* `Result.FilesFailed`: there is no result because an operation on the files of the cache failed.
* `Worker.Computed`: what comes of a text that is accepted.
* `Worker.uncached`: the answer without a cache.

## Main results

* `Worker.computed_or_done`: what a worker may compute.
* `Worker.Computed.replay`: an entry answers for every file with the same text.
* `Worker.uncached_eq_or_verify`: what verifying changes.
* `Cache.alike_of_keyBytes_eq`: equal keys come from equal texts and options.
-/

namespace Midend

/-! ### Optimizing -/

/-- The options ask for the same rewriting. -/
structure Options.Alike (o o' : Options) : Prop where
  /-- The same number of rounds. -/
  maxRounds : o.maxRounds = o'.maxRounds
  /-- The same choice about the peephole walk. -/
  peephole : o.peephole = o'.peephole
  /-- The same choice about constants. -/
  constProp : o.constProp = o'.constProp

/-- The options without verifying. -/
def Options.unverified (o : Options) : Options := { o with verify := false }

theorem Options.alike_unverified (o : Options) : o.unverified.Alike o := ⟨rfl, rfl, rfl⟩

theorem rewritePass_congr {o o' : Options} (h : o.Alike o') : rewritePass o = rewritePass o' := by
  rw [rewritePass, rewritePass, h.maxRounds, h.peephole, h.constProp]

/-- The session with the last line of its log. -/
def Session.closed (s : Session) : Session :=
  { s with log := s.log.push {
      level := .info
      message := "module optimized"
      attrs := [("module", s.program.name), ("stats", s.stats.text)] } }

theorem concludePass_of_verified {o : Options} {s : Session}
    (h : o.verify = true → s.program.verify = []) : concludePass o s = (.ok (.ok ()), s.closed) := by
  have hread : Pass.program s = (.ok s.program, s) := rfl
  unfold concludePass
  rw [Act.bind_of_ok hread]
  cases hverify : o.verify with
  | false => rfl
  | true =>
    rw [h hverify]
    rfl

theorem concludePass_of_breach {o : Options} {s : Session} (ho : o.verify = true)
    (h : s.program.verify ≠ []) :
    concludePass o s = (.ok (.error ⟨s.program.name, s.program.verify⟩), s) := by
  have hread : Pass.program s = (.ok s.program, s) := rfl
  unfold concludePass
  rw [Act.bind_of_ok hread, ho]
  cases hreport : s.program.verify with
  | nil => exact absurd hreport h
  | cons e es => rfl

theorem optimize_of_ok {o : Options} {p : Program} {s : Session}
    (h : rewritePass o { program := p } = (.ok (), s)) : optimize o p = concludePass o s :=
  Act.bind_of_ok h

theorem optimize_of_error {o : Options} {p : Program} {s : Session} {f : Fault}
    (h : rewritePass o { program := p } = (.error f, s)) : optimize o p = (.error f, s) :=
  Act.bind_of_error h

end Midend

namespace Midend.Cache

theorem keyBytes_congr {o o' : Options} (h : o.Alike o') (source : List UInt8) :
    keyBytes source o = keyBytes source o' := by
  rw [keyBytes, keyBytes, optionsText, optionsText, h.maxRounds, h.peephole, h.constProp]

/-- Keys that come from the same bytes come from the same text and alike options. -/
theorem alike_of_keyBytes_eq {source source' : ByteArray} {o o' : Options}
    (h : keyBytes source.data.toList o = keyBytes source'.data.toList o') :
    source = source' ∧ o.Alike o' := by
  obtain ⟨hsource, htext⟩ := eq_and_optionsText_eq h
  obtain ⟨hrounds, hpeephole, hconstProp⟩ := optionsText_injective htext
  exact ⟨ByteArray.ext (Array.toList_inj.mp hsource), hrounds, hpeephole, hconstProp⟩

end Midend.Cache

namespace Midend.Cli

open Files (FileTree)
open Cache (Counts Entry Key stamped)

/-! ### Results -/

/-- The results show the same. -/
structure Result.Agrees (r r' : Result) : Prop where
  /-- They are for the same path. -/
  path : r.path = r'.path
  /-- The texts are the same. -/
  output : r.output = r'.output
  /-- So is what is shown besides. -/
  trace : r.trace = r'.trace
  /-- So are the counters. -/
  stats : r.stats = r'.stats
  /-- Both have a result, or both have none for the same reason. -/
  failure : r.failure = r'.failure

theorem Result.Agrees.refl (r : Result) : r.Agrees r := ⟨rfl, rfl, rfl, rfl, rfl⟩

/-- There is no result because an operation on the files of the cache failed. -/
def Result.FilesFailed (r : Result) : Prop :=
  ∃ e, r.failure = some (.cache (.file e)) ∨ ∃ k, r.failure = some (.cache (.unreadable k (some e)))

/-- Is the cache the reason? -/
def Failure.ofCache : Failure → Bool
  | .cache _ => true
  | _ => false

theorem Result.not_filesFailed {r : Result} (h : r.failure.any Failure.ofCache = false) :
    ¬ r.FilesFailed := by
  rintro ⟨e, hfailure | ⟨k, hfailure⟩⟩ <;> simp [hfailure, Failure.ofCache] at h

/-- The plan without a cache. -/
def Plan.plain (plan : Plan) : Plan := { plan with cache := none }

/-- The plan without verifying. -/
def Plan.unverified (plan : Plan) : Plan := { plan with options := plan.options.unverified }

namespace Worker

/-! ### Computing -/

/-- What comes of a text that is accepted: the entry to be stored, and the result. -/
inductive Computed (plan : Plan) (path : String) (source : ByteArray) : Entry → Result → Prop where
  /-- The text is loaded, rewritten and verified, and the result is printed and shown. -/
  | intro {p : Program} {s : Session} {text besides : String} :
    Program.load path source = .ok p →
    rewritePass plan.options { program := p } = (.ok (), s) →
    (plan.options.verify = true → s.program.verify = []) →
    s.program.text = .ok text →
    shown plan (Report.traceText plan.color s.trace.toList) s.program = .ok besides →
    Computed plan path source
      { name := bytes path, output := bytes text,
        trace := bytes (Report.traceText plan.color s.trace.toList), stats := Counts.ofStats s.stats }
      { path := path, output := bytes text, trace := bytes besides, log := s.closed.log.toList,
        stats := Counts.ofStats s.stats }

variable {plan plan' : Plan} {path path' : String} {source : ByteArray} {key : Key} {e : Entry}
  {r : Result}

theorem Computed.compute (h : Computed plan path source e r) (key : Key) :
    compute plan path source key = .computed key e r := by
  cases h with
  | intro hload hrewrite hverify htext hbesides =>
    rw [Worker.compute]
    simp only [hload, optimize_of_ok hrewrite, concludePass_of_verified hverify]
    have htext' : (Session.closed _).program.text = .ok _ := htext
    have hbesides' : shown plan (Report.traceText plan.color (Session.closed _).trace.toList)
      (Session.closed _).program = .ok _ := hbesides
    simp only [optimized, htext', hbesides', bind, Except.bind]
    rfl

/-- Whether there is a result or a failure, and which it is, is settled by computing. -/
theorem computed_or_done (plan : Plan) (path : String) (source : ByteArray) (key : Key) :
    (∃ e r, Computed plan path source e r) ∨
      ∃ r f, compute plan path source key = .done r ∧ r.failure = some f ∧ ∀ err, f ≠ .cache err := by
  cases hload : Program.load path source with
  | error err =>
    refine .inr ⟨{ path := path, failure := some (.load err) }, .load err, ?_, rfl, fun _ => by simp⟩
    rw [Worker.compute]
    simp only [hload]
    rfl
  | ok p =>
    cases hrewrite : rewritePass plan.options { program := p } with
    | mk outcome s =>
      cases outcome with
      | error f =>
        refine .inr ⟨{ path := path, log := s.log.toList, failure := some (.fault f) }, .fault f, ?_, rfl,
          fun _ => by simp⟩
        rw [Worker.compute]
        simp only [hload, optimize_of_error hrewrite]
      | ok =>
        by_cases hverify : plan.options.verify = true → s.program.verify = []
        · cases hprint : optimized plan path s.closed with
          | error f =>
            refine .inr ⟨{ path := path, log := s.closed.log.toList, failure := some (.fault f) },
              .fault f, ?_, rfl, fun _ => by simp⟩
            rw [Worker.compute]
            simp only [hload, optimize_of_ok hrewrite, concludePass_of_verified hverify, hprint]
          | ok made =>
            refine .inl ?_
            rw [optimized] at hprint
            cases htext : s.closed.program.text with
            | error f => simp [htext, bind, Except.bind] at hprint
            | ok text =>
              cases hbesides : shown plan (Report.traceText plan.color s.closed.trace.toList)
                  s.closed.program with
              | error f => simp [htext, hbesides, bind, Except.bind] at hprint
              | ok besides => exact ⟨_, _, .intro hload hrewrite hverify htext hbesides⟩
        · rw [Classical.not_imp] at hverify
          refine .inr ⟨{ path := path, log := s.log.toList,
                         failure := some (.verify ⟨s.program.name, s.program.verify⟩) },
            .verify ⟨s.program.name, s.program.verify⟩, ?_, rfl, fun _ => by simp⟩
          rw [Worker.compute]
          simp only [hload, optimize_of_ok hrewrite, concludePass_of_breach hverify.1 hverify.2]

theorem Computed.failure (h : Computed plan path source e r) : r.failure = none := by
  cases h
  rfl

/-- **An entry answers for every file with the same text.**  If that is verified, the entry must come
from a result that was. -/
theorem Computed.replay (h : Computed plan path source e r) (hoptions : plan.options.Alike plan'.options)
    (hcolor : plan.color = plan'.color) (hdump : plan'.dump = false)
    (hverify : plan'.options.verify = true → plan.options.verify = true) (path' : String) :
    ∃ e' r', Computed plan' path' source e' r' ∧ (replay plan' path' (stamped e)).Agrees r' := by
  cases h with
  | @intro p s text besides hload hrewrite hverified htext hbesides =>
    have hload' : Program.load path' source = .ok (p.named path') := by
      rw [Program.load] at hload ⊢
      cases hparse : Program.parse path source with
      | error err => simp [hparse, Except.mapError] at hload
      | ok q =>
        rw [hparse] at hload
        obtain rfl : q = p := Except.ok.inj hload
        rw [parse_named path' hparse]
        rfl
    have hrewrite' : rewritePass plan'.options { program := p.named path' } = (.ok (), s.named path') := by
      have hsame := respects_rewritePass path' plan.options { program := p }
      rw [hrewrite] at hsame
      rw [← rewritePass_congr hoptions]
      exact hsame
    have hshown : shown plan' (Report.traceText plan'.color (s.named path').trace.toList)
        (s.named path').program =
          .ok ((if plan'.quiet then "" else Report.traceText plan'.color s.trace.toList) ++ "") := by
      rw [shown, hdump]
      rfl
    refine ⟨_, _, .intro hload' hrewrite' (fun hv => hverified (hverify hv)) htext hshown, ?_⟩
    refine ⟨rfl, rfl, ?_, rfl, rfl⟩
    show (if plan'.quiet then [] else bytes (Report.traceText plan.color s.trace.toList)) = bytes _
    rw [hcolor, String.append_empty]
    split <;> rfl

/-! ### What the steps come to -/

section

variable {t : FileTree}

theorem run_of_done (h : lookUp plan t path = .done r) : run plan t path = (r, t) := by
  rw [run]
  simp only [step, h]
  rfl

theorem run_of_missed (h : lookUp plan t path = .missed path source key)
    (hdone : compute plan path source key = .done r) : run plan t path = (r, t) := by
  rw [run]
  simp only [step, h, hdone]
  rfl

theorem run_of_computed (h : lookUp plan t path = .missed path source key)
    (hcomputed : Computed plan path source e r) :
    run plan t path =
      ((store plan t key e r).1.result?.getD { path := path }, (store plan t key e r).2) := by
  rw [run]
  simp only [step, h, hcomputed.compute]

end

/-! ### The answer without a cache -/

/-- The answer of a worker without a cache. -/
def uncached (plan : Plan) (t : FileTree) (path : String) : Result := (run plan.plain t path).1

theorem uncached_of_error {t : FileTree} {err : Files.FileError} (h : t.read path = .error err) :
    uncached plan t path = { path := path, failure := some (.load ⟨path, .file err⟩) } := by
  have hstep : lookUp plan.plain t path = failed path (.load ⟨path, .file err⟩) := by
    rw [lookUp, h]
  rw [uncached, run_of_done hstep]

/-- What a worker has computed, whether it is stored yet or not. -/
def answer : Worker → Result
  | .computed _ _ r => r
  | .done r => r
  | w => { path := w.path }

/-- The entry that a worker has yet to store. -/
def pending? : Worker → Option Entry
  | .computed _ e _ => some e
  | _ => none

theorem Computed.pending? (h : Computed plan path source e r) (key : Key) :
    (Worker.compute plan path source key).pending? = some e := by
  rw [h.compute]
  rfl

theorem uncached_of_ok {t : FileTree} (h : t.read path = .ok source) :
    uncached plan t path = (compute plan path source (.ofSource source plan.options)).answer := by
  have hstep : lookUp plan.plain t path = .missed path source (.ofSource source plan.options) := by
    rw [lookUp, h]
    rfl
  have hplain : compute plan.plain path source (.ofSource source plan.options) =
      compute plan path source (.ofSource source plan.options) := rfl
  rw [uncached, ← hplain]
  rcases computed_or_done plan.plain path source (.ofSource source plan.options) with
    ⟨e, r, hcomputed⟩ | ⟨r, f, hdone, -, -⟩
  · rw [run_of_computed hstep hcomputed, hcomputed.compute]
    rfl
  · rw [run_of_missed hstep hdone, hdone]
    rfl

theorem uncached_of_computed {t : FileTree} (h : t.read path = .ok source)
    (hcomputed : Computed plan path source e r) : uncached plan t path = r := by
  rw [uncached_of_ok h, hcomputed.compute]
  rfl

theorem compute_eq_or_verify (plan : Plan) (path : String) (source : ByteArray) (key : Key) :
    compute plan path source key = compute plan.unverified path source key ∨
      plan.options.verify = true ∧
        ∃ err, (compute plan path source key).answer.failure = some (.verify err) := by
  cases hload : Program.load path source with
  | error err =>
    left
    rw [compute, compute, hload]
  | ok p =>
    have halike : rewritePass plan.unverified.options = rewritePass plan.options :=
      rewritePass_congr plan.options.alike_unverified
    cases hrewrite : rewritePass plan.options { program := p } with
    | mk outcome s =>
      have hrewrite' := hrewrite
      rw [← halike] at hrewrite'
      cases outcome with
      | error f =>
        left
        rw [compute, compute]
        simp only [hload, optimize_of_error hrewrite, optimize_of_error hrewrite']
      | ok =>
        have hunverified : plan.unverified.options.verify = true → s.program.verify = [] :=
          fun h => absurd h Bool.false_ne_true
        by_cases hverify : plan.options.verify = true → s.program.verify = []
        · left
          rw [compute, compute]
          simp only [hload, optimize_of_ok hrewrite, optimize_of_ok hrewrite',
            concludePass_of_verified hverify, concludePass_of_verified hunverified]
          rfl
        · rw [Classical.not_imp] at hverify
          refine .inr ⟨hverify.1, ⟨s.program.name, s.program.verify⟩, ?_⟩
          rw [compute]
          simp only [hload, optimize_of_ok hrewrite, concludePass_of_breach hverify.1 hverify.2]
          rfl

/-- **Verifying changes nothing but that it may fail.** -/
theorem uncached_eq_or_verify (plan : Plan) (t : FileTree) (path : String) :
    uncached plan t path = uncached plan.unverified t path ∨
      plan.options.verify = true ∧ ∃ err, (uncached plan t path).failure = some (.verify err) := by
  cases hread : t.read path with
  | error err =>
    rw [uncached_of_error hread, uncached_of_error hread]
    exact .inl rfl
  | ok source =>
    rw [uncached_of_ok hread, uncached_of_ok hread]
    exact (compute_eq_or_verify plan path source _).imp_left (congrArg answer)

end Worker

end Midend.Cli
