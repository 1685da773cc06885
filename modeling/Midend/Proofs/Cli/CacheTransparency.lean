import Midend.Proofs.Cli.Interleaving
import Midend.Proofs.Pass.Optimizer

/-!
# When a cache is transparent

Commands that use one cache directory follow each other, and nobody else writes to it.  Then each file
gets what it would get without the cache, with one exception: the key does not tell whether a result was
verified.  A result that would fail to be verified is found in the cache if an earlier command has stored
it without verifying, and then the failure is not noticed.

The argument goes through the commands in order, whatever the order in which the workers of each take
their turns.  The invariant is that the cache holds an entry for just those texts and options for which a
file got a result before, and that each entry was computed for its key.

## Main definitions

* `Invocation`, `Station`: a command, and the cache and the way to show results that commands share.
* `Station.Successive`: commands that follow each other on one cache.

## Main results

* `Station.served_agrees_iff`: just those results differ that are unchecked.
-/

namespace Midend.Cli

open Files (FileTree)
open Cache (Entry Key keyBytes)

/-! ### One file after another -/

/-- The files that follow are answered. -/
def AllAnswered : List (Task × Result) → List (Task × Result) → Prop
  | _, [] => True
  | done, d :: rest => d.1.Answered done d.2 ∧ AllAnswered (done ++ [d]) rest

theorem AllAnswered.append {done first rest : List (Task × Result)} (hfirst : AllAnswered done first)
    (hrest : AllAnswered (done ++ first) rest) : AllAnswered done (first ++ rest) := by
  induction first generalizing done with
  | nil =>
    rw [List.append_nil] at hrest
    exact hrest
  | cons d first ih =>
    refine ⟨hfirst.1, ih hfirst.2 ?_⟩
    rw [List.append_assoc]
    exact hrest

theorem AllAnswered.answered {done first later : List (Task × Result)} {d : Task × Result}
    (h : AllAnswered done (first ++ d :: later)) : d.1.Answered (done ++ first) d.2 := by
  induction first generalizing done with
  | nil =>
    rw [List.append_nil]
    exact h.1
  | cons e first ih =>
    have hrest := ih h.2
    rw [List.append_assoc] at hrest
    exact hrest

/-- The files of one command are answered one after the other, if each is answered by the files before
the command. -/
theorem allAnswered_of_forall₂ {done own : List (Task × Result)} {plan : Plan} {js : List Task}
    {rs : List Result} (h : List.Forall₂ (Task.Answered done) js rs) (hplan : ∀ j ∈ js, j.plan = plan)
    (hown : ∀ d ∈ own, d.1.plan = plan ∧ d.1.Answered done d.2) :
    AllAnswered (done ++ own) (js.zip rs) := by
  induction h generalizing own with
  | nil => exact trivial
  | @cons j r js rs hanswered _ ih =>
    rw [List.forall_mem_cons] at hplan
    obtain ⟨rfl, hplan⟩ := hplan
    refine ⟨(Task.answered_append hown).mpr hanswered, ?_⟩
    rw [List.append_assoc]
    refine ih hplan fun d hd => ?_
    rcases List.mem_append.mp hd with hd | hd
    · exact hown d hd
    · obtain rfl := List.mem_singleton.mp hd
      exact ⟨rfl, hanswered⟩

/-! ### One command after another -/

/-- A command that optimizes some files. -/
structure Invocation where
  /-- The files when it starts. -/
  files : FileTree
  /-- The options of the optimizer. -/
  options : Options := {}
  /-- Leave out the trace? -/
  quiet : Bool := false
  /-- Show the reaching stores? -/
  dump : Bool := false
  /-- The files to be optimized. -/
  paths : List String
  /-- The order in which their workers take turns. -/
  schedule : List Nat
  /-- Each worker gets done. -/
  turns : ∀ k < paths.length, 3 ≤ schedule.count k

/-- What the commands have in common. -/
structure Station where
  /-- The environment. -/
  env : Cache.Environment := {}
  /-- The directory that is asked for. -/
  dir : String
  /-- The cache that is opened there. -/
  cache : Cache
  /-- Colour the trace? -/
  color : Bool := false

namespace Station

/-- What the workers of a command are asked to do. -/
def plan (st : Station) (i : Invocation) : Plan :=
  { options := i.options, quiet := i.quiet, dump := i.dump, color := st.color, cache := some st.cache }

/-- The tasks of a command. -/
def tasks (st : Station) (i : Invocation) : List Task := (st.plan i).tasks i.files i.paths

/-- Carries out a command: the cache is opened, and the workers optimize the files. -/
def run (st : Station) (i : Invocation) : List Result × FileTree :=
  Crew.inTurns i.schedule (st.plan i) (Cache.openIn st.env i.files st.dir).2 i.paths

/-- What the files of some commands get. -/
def served (st : Station) (history : List Invocation) : List (Task × Result) :=
  history.flatMap fun i => (st.tasks i).zip (st.run i).1

/-- The commands follow each other on one cache, to which nobody else writes; the cache can be opened,
and the files are not its own. -/
def Successive (st : Station) : FileTree → List Invocation → Prop
  | _, [] => True
  | t, i :: rest => st.cache.Untouched t i.files ∧ (Cache.openIn st.env i.files st.dir).1 = .ok st.cache ∧
    (∀ path ∈ i.paths, st.cache.Clear i.files path) ∧ st.Successive (st.run i).2 rest

variable {st : Station} {tasks : List Task} {kept : Key → Option Entry} {done : List (Task × Result)}

/-- The files of all commands. -/
theorem answered_history (hcolor : ∀ j ∈ tasks, j.plan.color = st.color) (hfree : CollisionFree tasks)
    (hfits : ∀ j ∈ tasks, j.Fits) {t : FileTree} {history : List Invocation}
    (htasks : ∀ i ∈ history, ∀ j ∈ st.tasks i, j ∈ tasks)
    (htrusted : Trusted (Occurs tasks) st.cache t kept) (hdone : ∀ d ∈ done, d.1 ∈ tasks)
    (hrecorded : Recorded kept done) (hsuccessive : st.Successive t history)
    (hfiles : ∀ i ∈ history, ∀ r ∈ (st.run i).1, ¬ r.FilesFailed) :
    AllAnswered done (st.served history) := by
  induction history generalizing t kept done with
  | nil => exact trivial
  | cons i history ih =>
    rw [List.forall_mem_cons] at htasks hfiles
    obtain ⟨huntouched, hopen, hclear, hrest⟩ := hsuccessive
    have hmakes := Cache.onlyMakes_openIn hopen
    have halters : st.cache.Alters i.files (Cache.openIn st.env i.files st.dir).2 :=
      Cache.alters_of_onlyMakes hmakes fun r hr => List.mem_append_left _ hr
    -- What the earlier commands left is what this one starts from.
    let sh : Shift :=
      { plan := st.plan i, files := i.files, paths := i.paths, tasks := tasks, done := done
        ours := htasks.1, before := hdone, color := hcolor, free := hfree, fits := hfits
        first := fun hnone => absurd hnone (Option.some_ne_none st.cache)
        clear := fun c hc => Option.some.inj hc ▸ hclear }
    have hshared : sh.Shared done (Cache.openIn st.env i.files st.dir).2 := by
      refine ⟨fun path hpath => halters.read (hclear path hpath), fun c hc => ?_⟩
      obtain rfl := Option.some.inj hc
      exact ⟨kept, (htrusted.untouched huntouched).onlyMakes hmakes, halters, hrecorded⟩
    obtain ⟨hanswered, hend⟩ := Crew.answered_inTurns sh hshared i.turns hfiles.1
    obtain ⟨kept', htrusted', -, hrecorded'⟩ := hend.cache st.cache rfl
    have hcommand := allAnswered_of_forall₂ hanswered (fun j hj => Shift.plan_of_own hj)
      (fun d hd => absurd hd (List.not_mem_nil (α := Task × Result)))
    rw [List.append_nil] at hcommand
    show AllAnswered done ((st.tasks i).zip (st.run i).1 ++ st.served history)
    refine hcommand.append (ih htasks.2 htrusted' (fun d hd => ?_) hrecorded' hrest hfiles.2)
    rcases List.mem_append.mp hd with hd | hd
    · exact hdone d hd
    · exact htasks.1 _ (List.of_mem_zip hd).1

/-- **A cache changes nothing but that a failure to be verified may go unnoticed.**  Over all commands
that use a cache directory, from the first one on, if nobody else writes to it, the operations on its
files succeed, its format has room for the entries and no two inputs have the same digest: a file gets the
same text, the same counters, the same trace and the same success or failure as without the cache, unless
it is unchecked, and then it gets what it would get without verifying.  The workers of each command may
take their turns in any order. -/
theorem served_agrees_iff (st : Station) {t : FileTree} {history : List Invocation}
    (hempty : st.cache.Empty t) (hsuccessive : st.Successive t history)
    (hfiles : ∀ i ∈ history, ∀ r ∈ (st.run i).1, ¬ r.FilesFailed)
    (hfree : CollisionFree (history.flatMap st.tasks)) (hfits : ∀ j ∈ history.flatMap st.tasks, j.Fits)
    {done later : List (Task × Result)} {j : Task} {r : Result}
    (h : st.served history = done ++ (j, r) :: later) :
    (r.Agrees j.uncached ↔ ¬ j.Unchecked done) ∧
      (j.Unchecked done → r.failure = none ∧ r.Agrees j.unverified.uncached) := by
  have hcolor : ∀ j ∈ history.flatMap st.tasks, j.plan.color = st.color := by
    intro j hj
    obtain ⟨i, -, hi⟩ := List.mem_flatMap.mp hj
    obtain ⟨path, -, rfl⟩ := List.mem_map.mp hi
    rfl
  have hall : AllAnswered [] (st.served history) :=
    answered_history hcolor hfree hfits (fun i hi j hj => List.mem_flatMap.mpr ⟨i, hi, hj⟩)
      (trusted_of_empty hempty) (fun d hd => absurd hd List.not_mem_nil) recorded_nil hsuccessive hfiles
  rw [h] at hall
  exact hall.answered

/-- A command may have one worker optimize its file after the other. -/
theorem run_eq_runAll (st : Station) {i : Invocation} (h : i.schedule = Crew.oneByOne 0 i.paths.length) :
    st.run i = Worker.runAll (st.plan i) (Cache.openIn st.env i.files st.dir).2 i.paths := by
  rw [run, h, Crew.runAll_eq_inTurns]

theorem exists_run_eq_singleton (st : Station) {i : Invocation} {path : String} (hpaths : i.paths = [path])
    (h : i.schedule = Crew.oneByOne 0 i.paths.length) : ∃ r, (st.run i).1 = [r] := by
  rw [run_eq_runAll st h, hpaths]
  exact ⟨_, rfl⟩

/-- Commands that keep their results in the directory `c`. -/
def crossing : Station := { dir := "c", cache := ⟨"c"⟩ }

/-- The first of them does not verify its result. -/
def hasty : Invocation where
  files := ⟨[(#["m.ir"], .file crossed)]⟩
  options := { constProp := false }
  paths := ["m.ir"]
  schedule := Crew.oneByOne 0 1
  turns := by decide

/-- The second one does, on the files that the first one left. -/
def careful (t : FileTree) : Invocation where
  files := t
  options := { constProp := false, verify := true }
  paths := ["m.ir"]
  schedule := Crew.oneByOne 0 1
  turns := by decide

theorem clear_crossing (t : FileTree) : crossing.cache.Clear t "m.ir" :=
  Cache.clear_of_size (by decide +kernel) t

theorem empty_crossing : crossing.cache.Empty hasty.files := Cache.empty_of_size (by decide +kernel)

section Crossing

variable {t : FileTree} (ht : (crossing.run hasty).2 = t)

include ht

set_option maxRecDepth 100000 in
/-- Both commands find the file and the cache, and succeed. -/
theorem run_crossing {i : Invocation} (hi : i ∈ [hasty, careful t]) :
    i.files.read "m.ir" = .ok crossed ∧
      (Cache.openIn crossing.env i.files crossing.dir).1 = .ok crossing.cache ∧
      ∀ r ∈ (crossing.run i).1, r.failure = none := by
  subst ht
  have hruns : ([hasty, careful (crossing.run hasty).2].all fun i =>
      (i.files.read "m.ir").toOption.map ByteArray.data == some crossed.data &&
        (Cache.openIn crossing.env i.files crossing.dir).1.toOption == some crossing.cache &&
        (crossing.run i).1.all fun r => r.failure.isNone) = true := by
    decide +kernel
  have hrun := List.all_eq_true.mp hruns i hi
  simp only [Bool.and_eq_true, List.all_eq_true, Option.isNone_iff_eq_none, beq_iff_eq] at hrun
  obtain ⟨⟨hsame, hopen⟩, hsucceeds⟩ := hrun
  exact ⟨FileTree.read_of_data hsame, Source.eq_ok_of_toOption hopen, hsucceeds⟩

omit ht

/-- What the commands would compute, whatever the files: only the second one fails. -/
theorem compute_crossing {i : Invocation} (hi : i ∈ [hasty, careful {}]) :
    (∀ e ∈ (Worker.compute (crossing.plan i) "m.ir" crossed (.ofSource crossed i.options)).pending?,
      e.Fits) ∧
    (Worker.compute (crossing.plan i) "m.ir" crossed (.ofSource crossed i.options)).answer.failure.isSome =
      i.options.verify := by
  have hcomputes : ([hasty, careful {}].all fun i =>
      (Worker.compute (crossing.plan i) "m.ir" crossed
        (.ofSource crossed i.options)).pending?.all (fun e => decide e.Fits) &&
      (Worker.compute (crossing.plan i) "m.ir" crossed
        (.ofSource crossed i.options)).answer.failure.isSome == i.options.verify) = true := by
    decide +kernel
  have hcompute := List.all_eq_true.mp hcomputes i hi
  rw [Bool.and_eq_true, beq_iff_eq] at hcompute
  refine ⟨fun e he => ?_, hcompute.2⟩
  have hfits := hcompute.1
  rw [he] at hfits
  simpa using hfits

theorem mem_tasks_crossing {j : Task} (hj : j ∈ [hasty, careful t].flatMap crossing.tasks) :
    ∃ i ∈ [hasty, careful t], j = ⟨i.files, crossing.plan i, "m.ir"⟩ := by
  have htasks : [hasty, careful t].flatMap crossing.tasks =
      [hasty, careful t].map fun i => ⟨i.files, crossing.plan i, "m.ir"⟩ := rfl
  rw [htasks] at hj
  obtain ⟨i, hi, rfl⟩ := List.mem_map.mp hj
  exact ⟨i, hi, rfl⟩

theorem hasty_mem : hasty ∈ [hasty, careful t] := List.mem_cons_self

theorem careful_mem : careful t ∈ [hasty, careful t] := List.mem_cons_of_mem _ List.mem_cons_self

include ht

/-- Without the cache the second command fails. -/
theorem verify_careful : ∃ err,
    (Worker.uncached (crossing.plan (careful t)) t "m.ir").failure = some (.verify err) := by
  have hread : t.read "m.ir" = .ok crossed := (run_crossing ht careful_mem).1
  rcases Worker.uncached_eq_or_verify (crossing.plan (careful t)) t "m.ir" with heq | ⟨-, hfails⟩
  · have hsame : (Worker.uncached (crossing.plan (careful t)) t "m.ir").failure.isSome =
        (Worker.uncached (crossing.plan hasty) t "m.ir").failure.isSome :=
      congrArg (fun r : Result => r.failure.isSome) heq
    rw [Worker.uncached_of_ok hread, Worker.uncached_of_ok hread] at hsame
    have hdiffer := ((compute_crossing careful_mem).2.symm.trans hsame).trans (compute_crossing hasty_mem).2
    exact absurd hdiffer (by decide)
  · exact hfails

theorem successive_crossing : crossing.Successive hasty.files [hasty, careful t] := by
  have hclear : ∀ t, ∀ path ∈ ["m.ir"], crossing.cache.Clear t path := by
    intro t path hpath
    obtain rfl := List.mem_singleton.mp hpath
    exact clear_crossing t
  refine ⟨fun _ _ => rfl, (run_crossing ht hasty_mem).2.1, hclear _, ?_⟩
  rw [ht]
  exact ⟨fun _ _ => rfl, (run_crossing ht careful_mem).2.1, hclear _, trivial⟩

theorem eq_crossed_of_reads {j : Task} (hj : j ∈ [hasty, careful t].flatMap crossing.tasks)
    {source : ByteArray} (hreads : j.Reads source) : source = crossed := by
  obtain ⟨i, hi, rfl⟩ := mem_tasks_crossing hj
  exact Except.ok.inj (hreads.symm.trans (run_crossing ht hi).1)

theorem collisionFree_crossing : CollisionFree ([hasty, careful t].flatMap crossing.tasks) := by
  refine collisionFree_of_reads (o := hasty.options) (fun j hj => ?_) fun j hj _ => eq_crossed_of_reads ht hj
  obtain ⟨i, hi, rfl⟩ := mem_tasks_crossing hj
  rw [List.mem_cons, List.mem_singleton] at hi
  rcases hi with rfl | rfl <;> exact ⟨rfl, rfl, rfl⟩

theorem fits_crossing {j : Task} (hj : j ∈ [hasty, careful t].flatMap crossing.tasks) : j.Fits := by
  intro source hreads
  obtain rfl := eq_crossed_of_reads ht hj hreads
  obtain ⟨i, hi, rfl⟩ := mem_tasks_crossing hj
  rw [List.mem_cons, List.mem_singleton] at hi
  rcases hi with rfl | rfl
  · exact (compute_crossing hasty_mem).1
  · exact (compute_crossing careful_mem).1

end Crossing

/-- The second command succeeds with a result that it would not let pass without the cache. -/
theorem served_agrees_iff_crossing : ∃ t j₁ r₁ j₂ r₂, (crossing.run hasty).2 = t ∧
    crossing.served [hasty, careful t] = [(j₁, r₁), (j₂, r₂)] ∧
      j₂ = ⟨t, crossing.plan (careful t), "m.ir"⟩ ∧ r₂.failure = none ∧
      (∃ err, j₂.uncached.failure = some (.verify err)) ∧ ¬ r₂.Agrees j₂.uncached ∧
      r₂.Agrees j₂.unverified.uncached := by
  obtain ⟨t, ht⟩ : ∃ t, (crossing.run hasty).2 = t := ⟨_, rfl⟩
  have hfiles : ∀ i ∈ [hasty, careful t], ∀ r ∈ (crossing.run i).1, ¬ r.FilesFailed := by
    rintro i hi r hr ⟨e, hfailed⟩
    rw [(run_crossing ht hi).2.2 r hr] at hfailed
    simp at hfailed
  obtain ⟨r₁, hr₁⟩ := exists_run_eq_singleton crossing (i := hasty) rfl rfl
  obtain ⟨r₂, hr₂⟩ := exists_run_eq_singleton crossing (i := careful t) rfl rfl
  have hserved : crossing.served [hasty, careful t] =
      [(⟨hasty.files, crossing.plan hasty, "m.ir"⟩, r₁)] ++
        (⟨t, crossing.plan (careful t), "m.ir"⟩, r₂) :: [] := by
    rw [served, List.flatMap_cons, List.flatMap_cons, hr₁, hr₂]
    rfl
  obtain ⟨hagrees, hunnoticed⟩ := served_agrees_iff crossing empty_crossing (successive_crossing ht) hfiles
    (collisionFree_crossing ht) (fun _ hj => fits_crossing ht hj) hserved
  have hunchecked : Task.Unchecked [(⟨hasty.files, crossing.plan hasty, "m.ir"⟩, r₁)]
      ⟨t, crossing.plan (careful t), "m.ir"⟩ :=
    ⟨rfl, rfl, verify_careful ht, _, List.mem_singleton_self _,
      ⟨crossed, (run_crossing ht hasty_mem).1, (run_crossing ht careful_mem).1, rfl, rfl, rfl⟩,
      (run_crossing ht hasty_mem).2.2 r₁ (by rw [hr₁]; exact List.mem_singleton_self r₁)⟩
  obtain ⟨hnone, hplain⟩ := hunnoticed hunchecked
  exact ⟨t, _, r₁, _, r₂, ht, hserved, rfl, hnone, verify_careful ht, fun h => hagrees.mp h hunchecked,
    hplain⟩

end Station

end Midend.Cli
