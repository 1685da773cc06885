import Midend.Cli.Run
import Midend.Proofs.Cli.Interleaving

/-!
# What a command shows of its workers

A command has its workers optimize the files, and then shows the results in the order of its arguments.
So whoever sees what it writes sees nothing of the order in which the workers took their turns, and
nothing of the cache, but for the log.

## Main definitions

* `printed`, `Shows`: what is written to the two channels for some results.
* `Reported`: a command has shown some results, and failed if some programs have none.

## Main results

* `reported_outcome`: what a command does with the results.
* `Reported.congr`: results that agree are shown in the same way.
* `outcome_inTurns`: the outcome does not depend on the order of the turns, or on the cache.
-/

namespace Midend.Cli

open Files (FileTree)

/-! ### Commands in progress -/

namespace Shell

variable {m : Shell Unit} {t t' : FileTree} {o : Outcome}

theorem outcome_of_ok (h : m ({}, t) = (.ok (), o, t')) : m.outcome t = (o, t') := by
  have hrun : m.run.run ({}, t) = (.ok (), o, t') := h
  rw [outcome, hrun]

theorem outcome_of_error {e : CliError} (h : m ({}, t) = (.error e, o, t')) :
    m.outcome t = ({ o with error := some e }, t') := by
  have hrun : m.run.run ({}, t) = (.error e, o, t') := h
  rw [outcome, hrun]

theorem outcome_congr {m' : Shell Unit} (h : m ({}, t) = m' ({}, t')) : m.outcome t = m'.outcome t' := by
  have hrun : m.run.run ({}, t) = m'.run.run ({}, t') := h
  rw [outcome, outcome, hrun]

end Shell

/-! ### What is shown -/

/-- The texts of the programs that have a result. -/
def printed (results : List Result) : List UInt8 :=
  results.flatMap fun r => if r.failure.isNone then r.output else []

/-- The text of some records of the log. -/
def logText (records : List LogRecord) : List UInt8 := bytes (String.join (records.map Report.logLine))

/-- A text shows some results in order: what each has to show, and why it has failed.  If everything is
logged, there may be records of the log in between. -/
inductive Shows (verbose : Bool) : List Result → List UInt8 → Prop where
  /-- There is nothing to show. -/
  | nil : Shows verbose [] []
  /-- Some records of the log come first. -/
  | log {results : List Result} {text : List UInt8} (records : List LogRecord) : verbose = true →
    Shows verbose results text → Shows verbose results (logText records ++ text)
  /-- A program without a result. -/
  | failed {r : Result} {f : Failure} {results : List Result} {text : List UInt8} :
    r.failure = some f → Shows verbose results text →
    Shows verbose (r :: results) (r.trace ++ (bytes (f.message ++ "\n") ++ text))
  /-- A program with a result. -/
  | passed {r : Result} {results : List Result} {text : List UInt8} :
    r.failure = none → Shows verbose results text → Shows verbose (r :: results) (r.trace ++ text)

/-- Without a log there is one way to show results. -/
theorem Shows.unique {results : List Result} {text text' : List UInt8} (h : Shows false results text)
    (h' : Shows false results text') : text = text' := by
  induction h generalizing text' with
  | nil =>
    cases h' with
    | nil => rfl
    | log records hverbose => exact absurd hverbose Bool.false_ne_true
  | log records hverbose => exact absurd hverbose Bool.false_ne_true
  | failed hfailure _ ih =>
    cases h' with
    | log records hverbose => exact absurd hverbose Bool.false_ne_true
    | failed hfailure' hrest =>
      obtain rfl := Option.some.inj (hfailure.symm.trans hfailure')
      rw [ih hrest]
    | passed hfailure' =>
      rw [hfailure] at hfailure'
      simp at hfailure'
  | passed hfailure _ ih =>
    cases h' with
    | log records hverbose => exact absurd hverbose Bool.false_ne_true
    | failed hfailure' =>
      rw [hfailure] at hfailure'
      simp at hfailure'
    | passed _ hrest => rw [ih hrest]

/-- A command has shown some results, and failed if some of the programs have none. -/
structure Reported (s : Settings) (results : List Result) (o : Outcome) (t : FileTree) : Prop where
  /-- The texts are written to the output, unless there is a file for them. -/
  stdout : o.stdout = if s.output = "" then printed results else []
  /-- If there is one, the text is there. -/
  file : s.output ≠ "" → countFailures results = 0 → t.read s.output = .ok ⟨(printed results).toArray⟩
  /-- All that is shown besides goes to the error channel. -/
  stderr : Shows s.verbose results o.stderr
  /-- The command fails just if some programs have no result. -/
  error : o.error = if countFailures results = 0 then none
    else some (.failed (countFailures results) results.length)
  /-- It tells how many these are. -/
  message : ∀ e ∈ o.error, e.message = s!"{countFailures results} of {results.length} module(s) failed"

section Congr

variable {results results' : List Result} (h : List.Forall₂ Result.Agrees results results')

include h

theorem printed_congr : printed results = printed results' := by
  induction h with
  | nil => rfl
  | cons hr _ ih =>
    rw [printed, printed, List.flatMap_cons, List.flatMap_cons, hr.failure, hr.output]
    exact congrArg _ ih

theorem countFailures_congr : countFailures results = countFailures results' := by
  induction h with
  | nil => rfl
  | cons hr _ ih =>
    rw [countFailures, countFailures, List.filter_cons, List.filter_cons, hr.failure]
    split
    · exact congrArg (· + 1) ih
    · exact ih

theorem Shows.congr {verbose : Bool} {text : List UInt8} (hshows : Shows verbose results text) :
    Shows verbose results' text := by
  induction hshows generalizing results' with
  | nil =>
    cases h
    exact .nil
  | log records hverbose _ ih => exact .log records hverbose (ih h)
  | failed hfailure _ ih =>
    cases h with
    | cons hr hrest =>
      rw [hr.trace]
      exact .failed (hr.failure.symm.trans hfailure) (ih hrest)
  | passed hfailure _ ih =>
    cases h with
    | cons hr hrest =>
      rw [hr.trace]
      exact .passed (hr.failure.symm.trans hfailure) (ih hrest)

/-- Results that agree are shown in the same way. -/
theorem Reported.congr {s : Settings} {o : Outcome} {t : FileTree} (hreported : Reported s results o t) :
    Reported s results' o t := by
  obtain ⟨hstdout, hfile, hstderr, herror, hmessage⟩ := hreported
  rw [printed_congr h] at hstdout hfile
  rw [countFailures_congr h] at hfile herror hmessage
  rw [h.length_eq] at herror hmessage
  exact ⟨hstdout, hfile, hstderr.congr h, herror, hmessage⟩

end Congr

/-! ### Showing results -/

variable {s : Settings} {results : List Result} {r : Result}

theorem writeLog_run (s : Settings) (records : List LogRecord) (o : Outcome) (t : FileTree) :
    ∃ text, writeLog s records (o, t) = (.ok (), { o with stderr := o.stderr ++ text }, t) ∧
      ∀ {results text'}, Shows s.verbose results text' → Shows s.verbose results (text ++ text') := by
  rw [writeLog]
  cases hverbose : s.verbose with
  | true => exact ⟨logText records, rfl, .log records rfl⟩
  | false =>
    refine ⟨[], ?_, id⟩
    rw [List.append_nil]
    rfl

theorem showResults_failed {f : Failure} (h : r.failure = some f) (o : Outcome) (t : FileTree) :
    showResults s (r :: results) (o, t) =
      showResults s results ({ o with stderr := o.stderr ++ r.trace ++ bytes (f.message ++ "\n") }, t) := by
  rw [showResults, h]
  rfl

theorem showResults_passed (h : r.failure = none) (o : Outcome) (t : FileTree) :
    showResults s (r :: results) (o, t) =
      (writeLog s [summary r] >>= fun _ => writeOutput s r.output >>= fun _ => showResults s results)
        ({ o with stderr := o.stderr ++ r.trace }, t) := by
  rw [showResults, h]
  rfl

/-- The results are shown one after the other. -/
theorem showResults_run (hs : s.output = "") (results : List Result) (o : Outcome) (t : FileTree) :
    ∃ text, Shows s.verbose results text ∧ showResults s results (o, t) =
      (.ok (), { o with stdout := o.stdout ++ printed results, stderr := o.stderr ++ text }, t) := by
  induction results generalizing o with
  | nil =>
    refine ⟨[], .nil, ?_⟩
    rw [printed, List.flatMap_nil, List.append_nil, List.append_nil]
    rfl
  | cons r results ih =>
    cases hfailure : r.failure with
    | some f =>
      obtain ⟨text, hshows, hrun⟩ :=
        ih { o with stderr := o.stderr ++ r.trace ++ bytes (f.message ++ "\n") }
      refine ⟨_, .failed hfailure hshows, ?_⟩
      rw [showResults_failed hfailure, hrun, printed, printed, List.flatMap_cons, hfailure]
      simp
    | none =>
      obtain ⟨log, hlog, hlogged⟩ := writeLog_run s [summary r] { o with stderr := o.stderr ++ r.trace } t
      obtain ⟨text, hshows, hrun⟩ :=
        ih { o with stdout := o.stdout ++ r.output, stderr := o.stderr ++ r.trace ++ log }
      refine ⟨_, .passed hfailure (hlogged hshows), ?_⟩
      have hwrite : ∀ o : Outcome, writeOutput s r.output (o, t) =
          (.ok (), { o with stdout := o.stdout ++ r.output }, t) := by
        intro o
        rw [writeOutput, if_pos hs]
        rfl
      rw [showResults_passed hfailure, Act.bind_of_ok hlog, Act.bind_of_ok (hwrite _), hrun, printed,
        printed, List.flatMap_cons, hfailure]
      simp

/-- A single result is written to the file that there is for it, unless that fails. -/
theorem showResults_file (hs : s.output ≠ "") (r : Result) (o : Outcome) (t : FileTree) :
    (∃ e o', showResults s [r] (o, t) = (.error (.file e), o', t)) ∨
      ∃ text t', Shows s.verbose [r] text ∧
        showResults s [r] (o, t) = (.ok (), { o with stderr := o.stderr ++ text }, t') ∧
        (r.failure = none → t'.read s.output = .ok ⟨r.output.toArray⟩) := by
  cases hfailure : r.failure with
  | some f =>
    refine .inr ⟨_, t, .failed hfailure .nil, ?_, fun h => by simp at h⟩
    rw [showResults_failed hfailure, List.append_nil, List.append_assoc]
    rfl
  | none =>
    obtain ⟨log, hlog, hlogged⟩ := writeLog_run s [summary r] { o with stderr := o.stderr ++ r.trace } t
    have hwriting : ∀ o : Outcome, writeOutput s r.output (o, t) =
        (Shell.ofExcept .file (t.write s.output ⟨r.output.toArray⟩) >>= Shell.setFiles) (o, t) := by
      intro o
      have hfiles : Shell.files (o, t) = (.ok t, o, t) := rfl
      rw [writeOutput, if_neg hs, Act.bind_of_ok hfiles]
    rw [showResults_passed hfailure, Act.bind_of_ok hlog]
    cases hwrite : t.write s.output ⟨r.output.toArray⟩ with
    | error e =>
      have hfails : ∀ o : Outcome, writeOutput s r.output (o, t) = (.error (.file e), o, t) := by
        intro o
        rw [hwriting, hwrite]
        rfl
      exact .inl ⟨e, _, Act.bind_of_error (hfails _)⟩
    | ok t' =>
      have hwrites : ∀ o : Outcome, writeOutput s r.output (o, t) = (.ok (), o, t') := by
        intro o
        rw [hwriting, hwrite]
        rfl
      refine .inr ⟨_, t', .passed hfailure (hlogged .nil), ?_, fun _ => Files.FileTree.read_of_write hwrite⟩
      rw [Act.bind_of_ok (hwrites _), List.append_nil, ← List.append_assoc]
      rfl

/-- All results are shown, unless the only one cannot be written to the file that there is for it. -/
theorem showResults_shown (hone : s.output = "" ∨ results.length = 1) (o : Outcome) (t : FileTree) :
    (s.output ≠ "" ∧ ∃ e o', showResults s results (o, t) = (.error (.file e), o', t)) ∨
      ∃ text t', Shows s.verbose results text ∧ showResults s results (o, t) = (.ok (),
          { o with stdout := o.stdout ++ (if s.output = "" then printed results else []),
                   stderr := o.stderr ++ text }, t') ∧
        (s.output ≠ "" → countFailures results = 0 →
          t'.read s.output = .ok ⟨(printed results).toArray⟩) := by
  by_cases hs : s.output = ""
  · obtain ⟨text, hshows, hrun⟩ := showResults_run hs results o t
    refine .inr ⟨text, t, hshows, ?_, fun h => absurd hs h⟩
    rw [hrun, if_pos hs]
  · obtain ⟨r, rfl⟩ := List.length_eq_one_iff.mp (hone.resolve_left hs)
    rcases showResults_file hs r o t with ⟨e, o', herror⟩ | ⟨text, t', hshows, hrun, hread⟩
    · exact .inl ⟨hs, e, o', herror⟩
    · refine .inr ⟨text, t', hshows, ?_, fun _ hcount => ?_⟩
      · rw [hrun, if_neg hs, List.append_nil]
      · have hnone : r.failure = none := by
          cases hfailure : r.failure with
          | none => rfl
          | some f => simp [countFailures, hfailure] at hcount
        have hprinted : printed [r] = r.output := by
          simp [printed, hnone]
        rw [hprinted]
        exact hread hnone

/-- **What a command does with the results,** if it can write them. -/
theorem reported_outcome (hone : s.output = "" ∨ results.length = 1) {t t' : FileTree} {o : Outcome}
    (hout : (reportResults s results).outcome t = (o, t'))
    (hwritten : s.output ≠ "" → ∀ e, o.error ≠ some (.file e)) : Reported s results o t' := by
  obtain ⟨log, hlog, hlogged⟩ := writeLog_run s (results.flatMap Result.log) {} t
  have hreport : reportResults s results ({}, t) = (showResults s results >>= fun _ =>
      if countFailures results != 0 then throw (.failed (countFailures results) results.length)
      else pure ()) ({ stderr := [] ++ log }, t) := Act.bind_of_ok hlog
  rcases showResults_shown hone { stderr := [] ++ log } t with
    ⟨hs, e, o', herror⟩ | ⟨text, t₁, hshows, hrun, hread⟩
  · have hfailed := Shell.outcome_of_error (hreport.trans (Act.bind_of_error herror))
    obtain ⟨rfl, -⟩ := Prod.mk.inj (hout.symm.trans hfailed)
    exact absurd rfl (hwritten hs e)
  · have hstate := hreport.trans (Act.bind_of_ok hrun)
    by_cases hcount : countFailures results = 0
    · rw [if_neg (by simp [hcount])] at hstate
      obtain ⟨rfl, rfl⟩ := Prod.mk.inj (hout.symm.trans (Shell.outcome_of_ok hstate))
      exact ⟨rfl, hread, hlogged hshows, (if_pos hcount).symm, fun e he => by simp at he⟩
    · rw [if_pos (by simpa using hcount)] at hstate
      obtain ⟨rfl, rfl⟩ := Prod.mk.inj (hout.symm.trans (Shell.outcome_of_error hstate))
      refine ⟨rfl, hread, hlogged hshows, (if_neg hcount).symm, fun e he => ?_⟩
      obtain rfl := Option.some.inj he
      rfl

/-- What is shown of some results is settled, up to the log. -/
theorem Reported.unique {o o' : Outcome} {t t' : FileTree} (h : Reported s results o t)
    (h' : Reported s results o' t') :
    o.stdout = o'.stdout ∧ o.error = o'.error ∧ (s.verbose = false → o.stderr = o'.stderr) := by
  refine ⟨h.stdout.trans h'.stdout.symm, h.error.trans h'.error.symm, fun hverbose => ?_⟩
  have hstderr := h.stderr
  have hstderr' := h'.stderr
  rw [hverbose] at hstderr hstderr'
  exact hstderr.unique hstderr'

/-! ### Commands -/

section Command

variable {ctx : Context} {color : Bool} {t t₁ : FileTree} {plan : Plan} {paths : List String}

/-- After it has made a plan, a command has its workers do what is planned, and shows what came of it. -/
theorem outcome_optimizeBy {work : Plan → FileTree → List String → List Result × FileTree}
    (hone : s.output = "" ∨ paths.length = 1) (hplan : makePlan ctx s color t = (.ok plan, t₁)) :
    (optimizeBy work ctx s color paths).outcome t =
      (reportResults s (work plan t₁ paths).1).outcome (work plan t₁ paths).2 := by
  have hguard : (s.output != "" && paths.length != 1) = false := by
    rcases hone with hs | hs <;> simp [hs]
  have hfiles : Shell.files (({} : Outcome), t) = (.ok t, {}, t) := rfl
  refine Shell.outcome_congr ?_
  unfold optimizeBy
  rw [hguard]
  simp only [Bool.false_eq_true, if_false]
  rw [Act.bind_of_ok hfiles, hplan]
  rfl

/-- What making a plan does to the files: nothing but opening the cache, if one is used. -/
theorem makePlan_files (h : makePlan ctx s color t = (.ok plan, t₁)) :
    plan.cache = none ∧ t₁ = t ∨
      ∃ c, plan.cache = some c ∧ Cache.openIn ctx.env t s.cacheDir = (.ok c, t₁) := by
  rw [makePlan] at h
  split at h
  · simp at h
  · split at h
    · split at h
      · simp at h
      · next c t₂ hopen =>
        obtain ⟨hplan, rfl⟩ := Prod.mk.inj h
        obtain rfl := Except.ok.inj hplan
        exact .inr ⟨c, rfl, hopen⟩
    · obtain ⟨hplan, rfl⟩ := Prod.mk.inj h
      obtain rfl := Except.ok.inj hplan
      exact .inl ⟨rfl, rfl⟩

theorem makePlan_of_openIn {options : Options} {c : Cache} (hresolve : resolveOptions ctx s t = .ok options)
    (hcache : s.cache = true) (hopen : Cache.openIn ctx.env t s.cacheDir = (.ok c, t₁)) :
    makePlan ctx s color t = (.ok ⟨options, s.quiet, s.dumpDataflow, color, some c⟩, t₁) := by
  rw [makePlan, hresolve]
  simp only [hcache, if_true, hopen]

/-- The settings without a cache. -/
def Settings.uncached (s : Settings) : Settings := { s with cache := false }

/-- The plan is the same without a cache. -/
theorem makePlan_uncached (h : makePlan ctx s color t = (.ok plan, t₁)) :
    makePlan ctx s.uncached color t = (.ok plan.plain, t) := by
  have hresolve : resolveOptions ctx s.uncached t = resolveOptions ctx s t := rfl
  have hcache : ¬ s.uncached.cache = true := Bool.false_ne_true
  rw [makePlan] at h ⊢
  rw [hresolve]
  split at h
  · simp at h
  · dsimp only
    rw [if_neg hcache]
    split at h
    · split at h
      · simp at h
      · obtain ⟨hplan, -⟩ := Prod.mk.inj h
        obtain rfl := Except.ok.inj hplan
        rfl
    · obtain ⟨hplan, -⟩ := Prod.mk.inj h
      obtain rfl := Except.ok.inj hplan
      rfl

/-- Without a cache, one worker after the other leaves the files as they are. -/
theorem runAll_plain (plan : Plan) (t : FileTree) (paths : List String) :
    Worker.runAll plan.plain t paths = (paths.map fun path => Worker.uncached plan t path, t) := by
  have hstep : ∀ (w : Worker) (t : FileTree), (w.step plan.plain t).2 = t := by
    intro w t
    cases w with
    | fresh | missed | computed | done => rfl
  induction paths with
  | nil => rfl
  | cons path paths ih =>
    have hrun : Worker.run plan.plain t path = (Worker.uncached plan t path, t) := by
      refine Prod.ext rfl ?_
      simp only [Worker.run, hstep]
    rw [Worker.runAll_cons, hrun, ih]
    rfl

/-- A command that has made its plan, and uses an empty cache or none. -/
def firstShift (plan : Plan) (t : FileTree) (paths : List String) (hfree : CollisionFree (plan.tasks t paths))
    (hfits : ∀ j ∈ plan.tasks t paths, j.Fits)
    (hclear : ∀ c ∈ plan.cache, ∀ path ∈ paths, c.Clear t path) : Shift where
  plan := plan
  files := t
  paths := paths
  tasks := plan.tasks t paths
  done := []
  ours _ hj := hj
  before d hd := absurd hd List.not_mem_nil
  first _ := rfl
  color j hj := by
    obtain ⟨path, -, rfl⟩ := List.mem_map.mp hj
    rfl
  free := hfree
  fits := hfits
  clear := hclear

/-- What the workers find when they begin, if the cache is empty. -/
theorem shared_of_makePlan (h : makePlan ctx s color t = (.ok plan, t₁))
    (hempty : ∀ c ∈ plan.cache, c.Empty t) (hfree : CollisionFree (plan.tasks t paths))
    (hfits : ∀ j ∈ plan.tasks t paths, j.Fits)
    (hclear : ∀ c ∈ plan.cache, ∀ path ∈ paths, c.Clear t path) :
    (firstShift plan t paths hfree hfits hclear).Shared [] t₁ := by
  rcases makePlan_files h with ⟨hnone, rfl⟩ | ⟨c, hcache, hopen⟩
  · refine ⟨fun _ _ => rfl, fun c hc => ?_⟩
    rw [firstShift, hnone] at hc
    simp at hc
  · have hmakes := Cache.onlyMakes_openIn (congrArg Prod.fst hopen)
    rw [hopen] at hmakes
    have halters : c.Alters t t₁ := Cache.alters_of_onlyMakes hmakes fun r hr => List.mem_append_left _ hr
    refine ⟨fun path hpath => halters.read (hclear c hcache path hpath), fun c' hc' => ?_⟩
    obtain rfl : c = c' := Option.some.inj (hcache.symm.trans hc')
    exact ⟨_, (trusted_of_empty (hempty c hcache)).onlyMakes hmakes, halters, recorded_nil⟩

/-- **The outcome does not depend on the order of the turns, or on the cache.**  If a command has its
workers take turns in any order, each three times or more, and uses an empty cache or none, then it
writes the texts of the programs in the order of its arguments, shows their traces and errors in that
order but for the log, and fails just if some of them fail, all as if it had the files optimized one after
the other without a cache.  The operations on files succeed, and no two of the texts have the same digest. -/
theorem outcome_inTurns {schedule : List Nat} {o o₀ : Outcome} {t' t₀' : FileTree}
    (hone : s.output = "" ∨ paths.length = 1) (hplan : makePlan ctx s color t = (.ok plan, t₁))
    (hturns : ∀ i < paths.length, 3 ≤ schedule.count i) (hempty : ∀ c ∈ plan.cache, c.Empty t)
    (hinputs : ∀ c ∈ plan.cache, ∀ path ∈ paths, (∃ source, t.read path = .ok source) ∨ c.Clear t path)
    (hfree : CollisionFree (plan.tasks t paths)) (hfits : ∀ j ∈ plan.tasks t paths, j.Fits)
    (hfiles : ∀ r ∈ (Crew.inTurns schedule plan t₁ paths).1, ¬ r.FilesFailed)
    (hout : (optimizeBy (Crew.inTurns schedule) ctx s color paths).outcome t = (o, t'))
    (hout₀ : (runOptimize ctx s.uncached color paths).outcome t = (o₀, t₀'))
    (hwritten : s.output ≠ "" → ∀ e, o.error ≠ some (.file e) ∧ o₀.error ≠ some (.file e)) :
    Reported s (paths.map fun path => Worker.uncached plan t path) o t' ∧
      o.stdout = o₀.stdout ∧ o.error = o₀.error ∧ (s.verbose = false → o.stderr = o₀.stderr) := by
  have hclear : ∀ c ∈ plan.cache, ∀ path ∈ paths, c.Clear t path := by
    intro c hc path hpath
    rcases hinputs c hc path hpath with ⟨source, hread⟩ | hclear
    · exact (hempty c hc).clear hread
    · exact hclear
  obtain ⟨hanswered, -⟩ := Crew.answered_inTurns (firstShift plan t paths hfree hfits hclear)
    (shared_of_makePlan hplan hempty hfree hfits hclear) hturns hfiles
  -- Before the command no file has got a result, so none goes unchecked.
  have hagrees : List.Forall₂ Result.Agrees (Crew.inTurns schedule plan t₁ paths).1
      (paths.map fun path => Worker.uncached plan t path) := by
    rw [List.forall₂_map_right_iff]
    exact (List.forall₂_map_left_iff.mp hanswered).flip.imp fun _ _ h => h.1.mpr (Task.not_unchecked_nil _)
  have hlength : (Crew.inTurns schedule plan t₁ paths).1.length = paths.length := by
    rw [hagrees.length_eq, List.length_map]
  -- The command whose workers take turns.
  have hreported : Reported s (paths.map fun path => Worker.uncached plan t path) o t' := by
    rw [outcome_optimizeBy hone hplan] at hout
    exact (reported_outcome (hlength.symm ▸ hone) hout fun hs e => (hwritten hs e).1).congr hagrees
  -- The command that optimizes one file after the other.
  have hreported₀ : Reported s.uncached (paths.map fun path => Worker.uncached plan t path) o₀ t₀' := by
    have hone₀ : s.uncached.output = "" ∨ paths.length = 1 := hone
    rw [runOptimize, outcome_optimizeBy hone₀ (makePlan_uncached hplan), runAll_plain] at hout₀
    exact reported_outcome (by rw [List.length_map]; exact hone) hout₀ fun hs e => (hwritten hs e).2
  obtain ⟨hstdout, hfile, hstderr, herror, hmessage⟩ := hreported₀
  exact ⟨hreported, hreported.unique ⟨hstdout, hfile, hstderr, herror, hmessage⟩⟩

/-- A program with an operation on constants. -/
def twin : ByteArray :=
  "func @f() : i32 \x7b\nentry:\n    %x = add i32 3, 4\n    ret i32 %x\n\x7d\n".toUTF8

/-- What is stored for it: the program without the operation, and how it was folded. -/
def twinEntry : Cache.Entry where
  schema := Cache.schemaVersion
  name := bytes "a.ir"
  output := bytes "func @f() : i32 \x7b\nentry:\n    ret i32 7\n\x7d\n"
  trace := bytes "Function Name: f\nIn basic block entry\nFunction Name: f\nIn basic block entry\n"
  stats := { rounds := 2, folded := 1 }

/-- Two files with the same text. -/
def twinFiles : FileTree := ⟨[(#["a.ir"], .file twin), (#["b.ir"], .file twin)]⟩

/-- Between them stands one that is missing. -/
def twinPaths : List String := ["a.ir", "x.ir", "b.ir"]

/-- Results are kept in the directory `c`. -/
def twinSettings : Settings := { cache := true, cacheDir := "c", noConstProp := some true }

/-- What the workers are asked to do. -/
def twinPlan : Plan := { options := { constProp := false }, cache := some ⟨"c"⟩ }

/-- The worker of the missing file begins, and the last worker finds what the first one has stored. -/
def twinTurns : List Nat := [1, 0, 0, 1, 0, 2, 2, 2, 1]

/-- The files when they begin. -/
def twinStart : FileTree := (Cache.openIn {} twinFiles "c").2

/-- The outcome of the command. -/
def twinOutcome : Outcome × FileTree :=
  (optimizeBy (Crew.inTurns twinTurns) {} twinSettings false twinPaths).outcome twinFiles

theorem makePlan_twins : makePlan {} twinSettings false twinFiles = (.ok twinPlan, twinStart) := by
  have hopen : Cache.openIn {} twinFiles "c" = (.ok ⟨"c"⟩, twinStart) :=
    Prod.ext (Source.eq_ok_of_toOption (by decide +kernel)) rfl
  exact makePlan_of_openIn rfl rfl hopen

/-- All texts are the same. -/
theorem eq_twin_of_reads {j : Task} (hj : j ∈ twinPlan.tasks twinFiles twinPaths) {source : ByteArray}
    (hread : j.Reads source) : source = twin := by
  have hreads : (twinPaths.all fun path =>
      (twinFiles.read path).toOption.all fun b => b.data == twin.data) = true := by
    decide +kernel
  obtain ⟨path, hpath, rfl⟩ := List.mem_map.mp hj
  have hsame := List.all_eq_true.mp hreads path hpath
  rw [Task.Reads] at hread
  rw [hread] at hsame
  exact ByteArray.ext (by simpa [Except.toOption] using hsame)

theorem collisionFree_twins : CollisionFree (twinPlan.tasks twinFiles twinPaths) := by
  refine collisionFree_of_reads (o := twinPlan.options) (fun j hj => ?_) fun j hj _ => eq_twin_of_reads hj
  obtain ⟨path, -, rfl⟩ := List.mem_map.mp hj
  exact ⟨rfl, rfl, rfl⟩

theorem fits_twins {j : Task} (hj : j ∈ twinPlan.tasks twinFiles twinPaths) : j.Fits := by
  intro source hread e he
  have hroom : (twinPaths.all fun path => (Worker.compute twinPlan path twin
      (.ofSource twin twinPlan.options)).pending?.all fun e => decide e.Fits) = true := by
    decide +kernel
  rw [eq_twin_of_reads hj hread] at he
  obtain ⟨path, hpath, rfl⟩ := List.mem_map.mp hj
  have hfits := List.all_eq_true.mp hroom path hpath
  rw [Option.mem_def] at he
  rw [he] at hfits
  simpa using hfits

set_option maxRecDepth 100000 in
theorem not_filesFailed_twins {r : Result}
    (hr : r ∈ (Crew.inTurns twinTurns twinPlan twinStart twinPaths).1) : ¬ r.FilesFailed := by
  have hruns : ((Crew.inTurns twinTurns twinPlan twinStart twinPaths).1.all
      fun r => !(r.failure.any Failure.ofCache)) = true := by
    decide +kernel
  exact Result.not_filesFailed (by simpa using List.all_eq_true.mp hruns r hr)

set_option maxRecDepth 100000 in
/-- What the first worker has stored is in the cache in the end. -/
theorem get_twins :
    (Cache.mk "c").get twinOutcome.2 (.ofSource twin twinPlan.options) = .ok (some twinEntry) :=
  Source.eq_ok_of_toOption (by decide +kernel)

set_option maxRecDepth 100000 in
/-- After its first turn the last worker is done, with what it has found. -/
theorem recalled_twins : ∃ r,
    ((Crew.start twinStart twinPaths).play twinPlan (twinTurns.take 6)).workers[2]?.bind Worker.result? =
      some r ∧ r.path = "b.ir" ∧ r.cached = true ∧ r.output = twinEntry.output ∧
      r.trace = twinEntry.trace ∧ r.stats = twinEntry.stats := by
  have hfound :
      (((Crew.start twinStart twinPaths).play twinPlan (twinTurns.take 6)).workers[2]?.bind
        Worker.result?).map (fun r => (r.path, r.cached, r.output, r.trace, r.stats)) =
      some ("b.ir", true, twinEntry.output, twinEntry.trace, twinEntry.stats) := by
    decide +kernel
  obtain ⟨r, hr, hfields⟩ := Option.map_eq_some_iff.mp hfound
  simp only [Prod.mk.injEq] at hfields
  exact ⟨r, hr, hfields⟩

/-- What is shown if one file after the other is optimized without a cache. -/
theorem stderr_twins :
    ((runOptimize {} twinSettings.uncached false twinPaths).outcome twinFiles).1.stderr =
      twinEntry.trace ++ bytes "cannot load x.ir: open x.ir: no such file or directory\n" ++
        twinEntry.trace := by
  decide +kernel

/-- Two files get the same text and show the same trace, one of them from the cache.  The third one has
none. -/
theorem outcome_inTurns_twins : ∃ o t' o₀ t₀', twinOutcome = (o, t') ∧
    (runOptimize {} twinSettings.uncached false twinPaths).outcome twinFiles = (o₀, t₀') ∧
    o.stdout = twinEntry.output ++ twinEntry.output ∧ o.error = some (.failed 1 3) ∧
    o.stderr = twinEntry.trace ++ bytes "cannot load x.ir: open x.ir: no such file or directory\n" ++
      twinEntry.trace ∧
    o.stdout = o₀.stdout ∧ o.error = o₀.error ∧ o.stderr = o₀.stderr ∧
    (Cache.mk "c").get t' (.ofSource twin twinPlan.options) = .ok (some twinEntry) ∧
    ∃ r, ((Crew.start twinStart twinPaths).play twinPlan (twinTurns.take 6)).workers[2]?.bind
        Worker.result? = some r ∧ r.path = "b.ir" ∧ r.cached = true ∧ r.output = twinEntry.output ∧
      r.trace = twinEntry.trace ∧ r.stats = twinEntry.stats := by
  have hclear : ∀ path ∈ twinPaths, ∀ r ∈ Files.wayOf path, r.size ≤ (Cache.mk "c").place.size ∧
      (r ∈ (Cache.mk "c").ways → FileTree.isGiven r = true) := by
    decide +kernel
  have hprinted : printed (twinPaths.map fun path => Worker.uncached twinPlan twinFiles path) =
      twinEntry.output ++ twinEntry.output := by
    decide +kernel
  have hcount : countFailures (twinPaths.map fun path => Worker.uncached twinPlan twinFiles path) = 1 := by
    decide +kernel
  obtain ⟨⟨o, t'⟩, hout⟩ : ∃ x, twinOutcome = x := ⟨_, rfl⟩
  obtain ⟨⟨o₀, t₀'⟩, hout₀⟩ : ∃ x,
      (runOptimize {} twinSettings.uncached false twinPaths).outcome twinFiles = x := ⟨_, rfl⟩
  obtain ⟨hreported, hstdout, herror, hstderr⟩ := outcome_inTurns (.inl rfl) makePlan_twins
    (show ∀ i < twinPaths.length, 3 ≤ twinTurns.count i by decide)
    (fun c hc => by
      obtain rfl := Option.some.inj hc
      exact Cache.empty_of_size (by decide +kernel))
    (fun c hc path hpath => by
      obtain rfl := Option.some.inj hc
      exact .inr (Cache.clear_of_size (hclear path hpath) _))
    collisionFree_twins (fun j hj => fits_twins hj) (fun r hr => not_filesFailed_twins hr) hout hout₀
    (fun hs => absurd rfl hs)
  have hget := get_twins
  rw [hout] at hget
  have hshown := stderr_twins
  rw [hout₀] at hshown
  refine ⟨o, t', o₀, t₀', hout, hout₀, hreported.stdout.trans ?_, hreported.error.trans ?_,
    (hstderr rfl).trans hshown, hstdout, herror, hstderr rfl, hget, recalled_twins⟩
  · rw [hprinted]
    rfl
  · rw [hcount]
    rfl

end Command

end Midend.Cli
