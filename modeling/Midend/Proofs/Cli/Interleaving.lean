import Mathlib.Data.List.Forall2
import Midend.Proofs.Cli.SharedCache

/-!
# Workers that take turns

The workers of a command share the files.  Between two steps of one worker the others may take steps of
their own, in any order: each worker looks for its result, computes it and stores it, and meanwhile the
cache may have got entries from the others.

What comes out does not depend on the order.  Each worker goes its way as it would go it alone, because
its file stays as it is, and because an entry that it finds was computed from the same text with the same
options, whoever stored it.  If that would fail to be verified, it was stored before the command started:
within one command either all workers verify their results, or none.

## Main definitions

* `Crew`, `Crew.turn`, `Crew.play`: workers that share files, and take turns.
* `Worker.OnTrack`: how far a worker has got, and with what.
* `Shift`: a command at work, with what its workers rely on.
* `Shift.Shared`: what the workers may find in the files.

## Main results

* `Crew.runAll_eq_inTurns`: one worker after the other is one of the orders.
* `Crew.rest_play`: three turns are enough for a worker.
* `Shift.advanced_step`: what a step keeps.
* `Crew.answered_inTurns`: the answers are the same in every order.
-/

namespace Midend.Cli

open Files (FileTree)
open Cache (Entry Key)

/-- The workers of a command, and the files that they share. -/
structure Crew where
  /-- The workers, in the order of their files. -/
  workers : List Worker
  /-- The files. -/
  files : FileTree
  deriving Inhabited

namespace Crew

/-- No worker has begun. -/
def start (t : FileTree) (paths : List String) : Crew := ⟨paths.map .fresh, t⟩

/-- One of the workers takes a step. -/
def turn (plan : Plan) (crew : Crew) (i : Nat) : Crew :=
  match crew.workers[i]? with
  | none => crew
  | some w => ⟨crew.workers.set i (w.step plan crew.files).1, (w.step plan crew.files).2⟩

/-- The workers take turns. -/
def play (plan : Plan) (crew : Crew) (schedule : List Nat) : Crew := schedule.foldl (turn plan) crew

/-- The results of the workers that are done. -/
def results (crew : Crew) : List Result := crew.workers.filterMap Worker.result?

/-- What comes of some files if their workers take turns in a given order. -/
def inTurns (schedule : List Nat) (plan : Plan) (t : FileTree) (paths : List String) :
    List Result × FileTree :=
  (((start t paths).play plan schedule).results, ((start t paths).play plan schedule).files)

variable {plan : Plan} {crew : Crew} {i j : Nat} {w : Worker}

theorem turn_of_some (h : crew.workers[i]? = some w) :
    crew.turn plan i = ⟨crew.workers.set i (w.step plan crew.files).1, (w.step plan crew.files).2⟩ := by
  rw [turn, h]

theorem turn_of_none (h : crew.workers[i]? = none) : crew.turn plan i = crew := by
  rw [turn, h]

theorem getElem?_turn_of_ne (h : j ≠ i) : (crew.turn plan i).workers[j]? = crew.workers[j]? := by
  cases hw : crew.workers[i]? with
  | none => rw [turn_of_none hw]
  | some w =>
    rw [turn_of_some hw]
    exact List.getElem?_set_ne h.symm

theorem getElem?_turn_self (h : crew.workers[i]? = some w) :
    (crew.turn plan i).workers[i]? = some (w.step plan crew.files).1 := by
  rw [turn_of_some h]
  exact List.getElem?_set_self (List.getElem?_eq_some_iff.mp h).1

end Crew

/-! ### Getting done -/

namespace Worker

/-- How many steps a worker has left at most. -/
def rest : Worker → Nat
  | .fresh _ => 3
  | .missed _ _ _ => 2
  | .computed _ _ _ => 1
  | .done _ => 0

theorem rest_lookUp (plan : Plan) (t : FileTree) (path : String) : (lookUp plan t path).rest ≤ 2 := by
  rw [lookUp]
  split
  · exact Nat.zero_le 2
  · dsimp only
    split
    · exact Nat.le_refl 2
    · split
      · exact Nat.le_refl 2
      · split
        · exact Nat.zero_le 2
        · exact Nat.zero_le 2
        · exact Nat.le_refl 2

/-- A step gets a worker on. -/
theorem rest_step (plan : Plan) (t : FileTree) (w : Worker) : (w.step plan t).1.rest ≤ w.rest - 1 := by
  cases w with
  | fresh path => exact rest_lookUp plan t path
  | missed path source key =>
    rcases computed_or_done plan path source key with ⟨e, r, hcomputed⟩ | ⟨r, f, hdone, -, -⟩
    · rw [step, hcomputed.compute]
      exact Nat.le_refl 1
    · rw [step, hdone]
      exact Nat.zero_le 1
  | computed key e r =>
    rw [step, store]
    split
    · exact Nat.le_refl 0
    · split
      · exact Nat.le_refl 0
      · exact Nat.le_refl 0
  | done r => exact Nat.le_refl 0

theorem exists_done_of_rest {w : Worker} (h : w.rest = 0) : ∃ r, w = .done r := by
  cases w with
  | done r => exact ⟨r, rfl⟩
  | fresh | missed | computed => simp [rest] at h

end Worker

namespace Crew

variable {plan : Plan} {crew : Crew}

theorem length_turn (i : Nat) : (crew.turn plan i).workers.length = crew.workers.length := by
  cases hw : crew.workers[i]? with
  | none => rw [turn_of_none hw]
  | some w =>
    rw [turn_of_some hw]
    exact List.length_set

theorem length_play (schedule : List Nat) :
    (crew.play plan schedule).workers.length = crew.workers.length := by
  induction schedule generalizing crew with
  | nil => rfl
  | cons i schedule ih => exact ih.trans (length_turn i)

/-- Each turn takes a worker a step further. -/
theorem rest_play {schedule : List Nat} {j : Nat} {w w' : Worker} (hw : crew.workers[j]? = some w)
    (hw' : (crew.play plan schedule).workers[j]? = some w') : w'.rest ≤ w.rest - schedule.count j := by
  induction schedule generalizing crew w with
  | nil =>
    have hsame : w = w' := Option.some.inj (hw.symm.trans hw')
    rw [hsame, List.count_nil]
    exact Nat.le_refl _
  | cons i schedule ih =>
    by_cases hi : j = i
    · subst hi
      have hstep := w.rest_step plan crew.files
      have hrest := ih (getElem?_turn_self hw) hw'
      rw [List.count_cons_self]
      omega
    · have hrest := ih ((getElem?_turn_of_ne hi).trans hw) hw'
      rw [List.count_cons_of_ne (Ne.symm hi)]
      exact hrest

/-- After three turns each, all workers are done. -/
theorem done_of_turns {t : FileTree} {paths : List String} {schedule : List Nat}
    (hturns : ∀ i < paths.length, 3 ≤ schedule.count i) {w : Worker}
    (hw : w ∈ ((start t paths).play plan schedule).workers) : ∃ r, w = .done r := by
  obtain ⟨j, hj⟩ := List.mem_iff_getElem?.mp hw
  have hlength : j < paths.length := by
    have hbound := (List.getElem?_eq_some_iff.mp hj).1
    rw [length_play, start, List.length_map] at hbound
    exact hbound
  have hfresh : (start t paths).workers[j]? = some (.fresh paths[j]) := by
    rw [start, List.getElem?_map, List.getElem?_eq_getElem hlength]
    rfl
  refine Worker.exists_done_of_rest ?_
  have hrest := rest_play hfresh hj
  have hthree := hturns j hlength
  have hstart : (Worker.fresh paths[j]).rest = 3 := rfl
  omega

end Crew

/-! ### One after the other -/

theorem Worker.runAll_cons (plan : Plan) (t : FileTree) (path : String) (paths : List String) :
    runAll plan t (path :: paths) =
      ((run plan t path).1 :: (runAll plan (run plan t path).2 paths).1,
        (runAll plan (run plan t path).2 paths).2) := rfl

namespace Crew

variable (plan : Plan)

theorem play_append (crew : Crew) (schedule schedule' : List Nat) :
    crew.play plan (schedule ++ schedule') = (crew.play plan schedule).play plan schedule' :=
  List.foldl_append

theorem turn_append (before after : List Worker) (w : Worker) (t : FileTree) :
    turn plan ⟨before ++ w :: after, t⟩ before.length =
      ⟨before ++ (w.step plan t).1 :: after, (w.step plan t).2⟩ := by
  have hw : (before ++ w :: after)[before.length]? = some w := by
    rw [List.getElem?_append_right (Nat.le_refl _), Nat.sub_self]
    rfl
  rw [turn_of_some hw, List.set_append_right _ _ (Nat.le_refl _), Nat.sub_self]
  rfl

/-- Three turns of one worker are its run. -/
theorem play_three (before after : List Worker) (t : FileTree) (path : String) :
    play plan ⟨before ++ .fresh path :: after, t⟩ (List.replicate 3 before.length) =
      ⟨before ++ .done (Worker.run plan t path).1 :: after, (Worker.run plan t path).2⟩ := by
  obtain ⟨w₁, t₁, h₁⟩ : ∃ w₁ t₁, (Worker.fresh path).step plan t = (w₁, t₁) := ⟨_, _, rfl⟩
  obtain ⟨w₂, t₂, h₂⟩ : ∃ w₂ t₂, w₁.step plan t₁ = (w₂, t₂) := ⟨_, _, rfl⟩
  obtain ⟨w₃, t₃, h₃⟩ : ∃ w₃ t₃, w₂.step plan t₂ = (w₃, t₃) := ⟨_, _, rfl⟩
  -- The third step is the last one, whatever came of the others.
  obtain ⟨r, rfl⟩ : ∃ r, w₃ = .done r := by
    refine Worker.exists_done_of_rest ?_
    have hrest₁ := (Worker.fresh path).rest_step plan t
    have hrest₂ := w₁.rest_step plan t₁
    have hrest₃ := w₂.rest_step plan t₂
    have hfresh : (Worker.fresh path).rest = 3 := rfl
    rw [h₁] at hrest₁
    rw [h₂] at hrest₂
    rw [h₃] at hrest₃
    dsimp only at hrest₁ hrest₂ hrest₃
    omega
  have hrun : Worker.run plan t path = (r, t₃) := by
    simp only [Worker.run, h₁, h₂, h₃]
    rfl
  have hplay : play plan ⟨before ++ .fresh path :: after, t⟩ (List.replicate 3 before.length) =
      turn plan (turn plan (turn plan ⟨before ++ .fresh path :: after, t⟩ before.length) before.length)
        before.length := rfl
  rw [hplay, turn_append, h₁, turn_append, h₂, turn_append, h₃, hrun]

/-- The order in which one worker after the other has its turns. -/
def oneByOne (first count : Nat) : List Nat := (List.range' first count).flatMap (List.replicate 3)

theorem play_oneByOne (before : List Result) (t : FileTree) (paths : List String) :
    play plan ⟨before.map .done ++ paths.map .fresh, t⟩ (oneByOne before.length paths.length) =
      ⟨(before ++ (Worker.runAll plan t paths).1).map .done, (Worker.runAll plan t paths).2⟩ := by
  induction paths generalizing before t with
  | nil =>
    rw [Worker.runAll, List.append_nil, List.map_nil, List.append_nil]
    rfl
  | cons path paths ih =>
    have hfirst := play_three plan (before.map .done) (paths.map .fresh) t path
    rw [List.length_map] at hfirst
    have hrest := ih (before ++ [(Worker.run plan t path).1]) (Worker.run plan t path).2
    rw [List.length_append, List.length_singleton, List.map_append, List.append_assoc,
      List.append_assoc] at hrest
    rw [oneByOne, List.length_cons, List.range'_succ, List.flatMap_cons, play_append, List.map_cons,
      hfirst, Worker.runAll_cons]
    exact hrest

/-- **One worker after the other is one of the orders.** -/
theorem runAll_eq_inTurns (t : FileTree) (paths : List String) :
    Worker.runAll plan t paths = inTurns (oneByOne 0 paths.length) plan t paths := by
  have hplay := play_oneByOne plan [] t paths
  rw [List.map_nil, List.nil_append, List.nil_append, List.length_nil] at hplay
  have hresults : ∀ rs : List Result, (rs.map Worker.done).filterMap Worker.result? = rs := by
    intro rs
    rw [List.filterMap_map]
    exact List.filterMap_some
  rw [inTurns, start, hplay, results, hresults]

end Crew

/-! ### Every worker goes its way -/

namespace Worker

/-- How far the worker of a task has got, and with what.  The files `done` have got their results before
the command started. -/
inductive OnTrack (done : List (Task × Result)) (j : Task) : Worker → Prop where
  /-- It has not begun. -/
  | fresh : OnTrack done j (.fresh j.path)
  /-- It has read the text, and found no result. -/
  | missed {source : ByteArray} : j.Reads source → ¬ j.Unchecked done →
    OnTrack done j (.missed j.path source (.ofSource source j.plan.options))
  /-- It has computed what is to be stored. -/
  | computed {source : ByteArray} {e : Entry} {r : Result} : j.Reads source → ¬ j.Unchecked done →
    Computed j.plan j.path source e r → OnTrack done j (.computed (.ofSource source j.plan.options) e r)
  /-- It is done. -/
  | done {r : Result} : j.Answered done r → OnTrack done j (.done r)

/-- The task of a worker with its result, if it is done. -/
def finished (j : Task) (w : Worker) : List (Task × Result) := w.result?.toList.map (j, ·)

end Worker

/-- A command whose workers are at work, and what came before it. -/
structure Shift where
  /-- What the workers are asked to do. -/
  plan : Plan
  /-- The files when they begin. -/
  files : FileTree
  /-- The files to be optimized. -/
  paths : List String
  /-- All tasks that come up, those of other commands too. -/
  tasks : List Task
  /-- The files that got their results before. -/
  done : List (Task × Result)
  /-- The tasks of the command are among all tasks. -/
  ours : ∀ j ∈ plan.tasks files paths, j ∈ tasks
  /-- So are those of the files before. -/
  before : ∀ d ∈ done, d.1 ∈ tasks
  /-- Without a cache there are none. -/
  first : plan.cache = none → done = []
  /-- All traces are shown in the same way. -/
  color : ∀ j ∈ tasks, j.plan.color = plan.color
  /-- No two inputs have the same digest. -/
  free : CollisionFree tasks
  /-- The format has room for all entries. -/
  fits : ∀ j ∈ tasks, j.Fits
  /-- The files are not those of the cache. -/
  clear : ∀ c ∈ plan.cache, ∀ path ∈ paths, c.Clear files path

namespace Shift

/-- The task for one of the files. -/
def task (sh : Shift) (path : String) : Task := ⟨sh.files, sh.plan, path⟩

/-- The tasks of the command. -/
def own (sh : Shift) : List Task := sh.plan.tasks sh.files sh.paths

/-- What the workers may find in the files: the texts are as they were when the command started, and the
cache holds what was computed for the files that have got results. -/
structure Shared (sh : Shift) (got : List (Task × Result)) (t : FileTree) : Prop where
  /-- The texts are the same. -/
  reads : ∀ path ∈ sh.paths, t.read path = sh.files.read path
  /-- The entries of the cache were computed for their keys. -/
  cache : ∀ c ∈ sh.plan.cache, ∃ kept,
    Trusted (Occurs sh.tasks) c t kept ∧ c.Alters sh.files t ∧ Recorded kept got

/-- A worker has gone on its way, unless an operation on the files of the cache has failed.  Of the
command, the files `got` have got their results. -/
def Advanced (sh : Shift) (got : List (Task × Result)) (j : Task) (w : Worker) (t : FileTree) : Prop :=
  (∃ r, w = .done r ∧ r.FilesFailed) ∨
    w.OnTrack sh.done j ∧ sh.Shared (sh.done ++ got ++ w.finished j) t

variable {sh : Shift} {got got' : List (Task × Result)} {t : FileTree} {path : String} {j : Task}
  {r : Result} {source : ByteArray}

theorem Shared.congr (h : sh.Shared got t) (hsame : ∀ d, d ∈ got ↔ d ∈ got') : sh.Shared got' t := by
  refine ⟨h.reads, fun c hc => ?_⟩
  obtain ⟨kept, htrusted, halters, hrecorded⟩ := h.cache c hc
  exact ⟨kept, htrusted, halters, hrecorded.congr hsame⟩

theorem Shared.failed (h : sh.Shared got t) (hr : r.failure ≠ none) : sh.Shared (got ++ [(j, r)]) t := by
  refine ⟨h.reads, fun c hc => ?_⟩
  obtain ⟨kept, htrusted, halters, hrecorded⟩ := h.cache c hc
  exact ⟨kept, htrusted, halters, hrecorded.failed hr⟩

theorem plan_of_own (hj : j ∈ sh.own) : j.plan = sh.plan := by
  obtain ⟨path, -, rfl⟩ := List.mem_map.mp hj
  rfl

section Step

variable (hgot : ∀ d ∈ got, d.1 ∈ sh.own ∧ d.1.Answered sh.done d.2) (hpath : path ∈ sh.paths)
  (hshared : sh.Shared (sh.done ++ got) t)

include hshared

/-- The second step. -/
theorem advanced_compute (hread : sh.files.read path = .ok source)
    (hchecked : ¬ (sh.task path).Unchecked sh.done) :
    sh.Advanced got (sh.task path)
      (Worker.compute sh.plan path source (.ofSource source sh.plan.options)) t := by
  rcases Worker.computed_or_done sh.plan path source (.ofSource source sh.plan.options) with
    ⟨e, r, hcomputed⟩ | ⟨r, f, hdone, hfailure, -⟩
  · rw [hcomputed.compute]
    refine .inr ⟨.computed hread hchecked hcomputed, ?_⟩
    rw [show Worker.finished (sh.task path) (.computed _ e r) = [] from rfl, List.append_nil]
    exact hshared
  · have hsame : (sh.task path).uncached = r :=
      (Worker.uncached_of_ok hread).trans (congrArg Worker.answer hdone)
    rw [hdone]
    exact .inr ⟨.done (Task.answered_of_agrees hchecked (hsame ▸ .refl r)),
      hshared.failed (by rw [hfailure]; simp)⟩

include hpath

/-- The third step: the others may find the result from now on. -/
theorem advanced_store {e : Entry} (hread : sh.files.read path = .ok source)
    (hchecked : ¬ (sh.task path).Unchecked sh.done)
    (hcomputed : Worker.Computed sh.plan path source e r) :
    sh.Advanced got (sh.task path) (Worker.store sh.plan t (.ofSource source sh.plan.options) e r).1
      (Worker.store sh.plan t (.ofSource source sh.plan.options) e r).2 := by
  have hsame : (sh.task path).uncached = r := Worker.uncached_of_computed hread hcomputed
  have hdone : Worker.OnTrack sh.done (sh.task path) (.done r) :=
    .done (Task.answered_of_agrees hchecked (hsame ▸ .refl r))
  cases hcache : sh.plan.cache with
  | none =>
    have hstore : Worker.store sh.plan t (.ofSource source sh.plan.options) e r = (.done r, t) := by
      rw [Worker.store, hcache]
    rw [hstore]
    refine .inr ⟨hdone, hshared.reads, fun c hc => ?_⟩
    rw [hcache] at hc
    simp at hc
  | some c =>
    obtain ⟨kept, htrusted, halters, hrecorded⟩ := hshared.cache c hcache
    have htask : sh.task path ∈ sh.tasks := sh.ours _ (List.mem_map_of_mem hpath)
    have hroom : e.Fits := sh.fits _ htask source hread e (hcomputed.pending? _)
    rcases Worker.store_cached hcache htrusted ⟨_, htask, rfl, hread⟩ hcomputed hroom with hfailed |
      ⟨hstore, htrusted', halters'⟩
    · exact .inl hfailed
    · have haltered := halters.trans halters'
      rw [hstore]
      refine .inr ⟨hdone, fun path' hpath' => haltered.read (sh.clear c hcache path' hpath'),
        fun c' hc' => ?_⟩
      obtain rfl : c = c' := Option.some.inj (hcache.symm.trans hc')
      exact ⟨_, htrusted', haltered, hrecorded.stored (j := sh.task path) hread hcomputed.failure _⟩

include hgot

/-- The first step: what is found is what the files before account for. -/
theorem advanced_lookUp : sh.Advanced got (sh.task path) (Worker.lookUp sh.plan t path) t := by
  have hsame := hshared.reads path hpath
  have hshared' : sh.Shared (sh.done ++ got ++ []) t := by
    rw [List.append_nil]
    exact hshared
  cases hread : sh.files.read path with
  | error err =>
    have hlook : Worker.lookUp sh.plan t path = Worker.failed path (.load ⟨path, .file err⟩) := by
      rw [Worker.lookUp, hsame, hread]
    have hchecked : ¬ (sh.task path).Unchecked sh.done := by
      rintro ⟨-, -, -, d, -, ⟨source, -, hreads, -⟩, -⟩
      exact absurd (hread.symm.trans hreads) (by simp)
    have huncached : (sh.task path).uncached = _ := Worker.uncached_of_error hread
    rw [hlook]
    exact .inr ⟨.done (Task.answered_of_agrees hchecked (huncached ▸ .refl _)), hshared.failed (by simp)⟩
  | ok source =>
    cases hcache : sh.plan.cache with
    | none =>
      have hlook : Worker.lookUp sh.plan t path =
          .missed path source (.ofSource source sh.plan.options) := by
        rw [Worker.lookUp, hsame, hread, hcache]
      rw [hlook]
      refine .inr ⟨.missed hread ?_, hshared'⟩
      rw [sh.first hcache]
      exact Task.not_unchecked_nil _
    | some c =>
      obtain ⟨kept, htrusted, halters, hrecorded⟩ := hshared.cache c hcache
      have hplans : ∀ d ∈ got, d.1.plan = (sh.task path).plan ∧ d.1.Answered sh.done d.2 :=
        fun d hd => ⟨plan_of_own (hgot d hd).1, (hgot d hd).2⟩
      rcases Worker.lookUp_cached hcache htrusted.holds (hsame.trans hread) with hfailed |
        ⟨hlook, hmissed⟩ | ⟨e, hlook, hdump, hkept⟩
      · exact .inl hfailed
      · -- Nothing was found, so no file before got a result for this text.
        have hchecked : ¬ (sh.task path).Unchecked (sh.done ++ got) := by
          refine hrecorded.not_unchecked fun source' hreads => ?_
          obtain rfl := Except.ok.inj (hread.symm.trans hreads)
          exact hmissed
        rw [Task.unchecked_append hplans] at hchecked
        rw [hlook]
        exact .inr ⟨.missed hread hchecked, hshared'⟩
      · -- The entry may be one that another worker of the command has stored meanwhile.
        have hanswered := htrusted.answered (j := sh.task path) hrecorded sh.color sh.free
          (sh.ours _ (List.mem_map_of_mem hpath))
          (fun d hd => (List.mem_append.mp hd).elim (sh.before d) fun hd => sh.ours _ (hgot d hd).1)
          hread hdump hkept
        rw [Task.answered_append hplans] at hanswered
        rw [hlook]
        refine .inr ⟨.done hanswered, hshared.reads, fun c' hc' => ?_⟩
        obtain rfl : c = c' := Option.some.inj (hcache.symm.trans hc')
        exact ⟨kept, htrusted, halters, hrecorded.recalled hread (hkept ▸ Option.some_ne_none e)⟩

end Step

/-- **What a step keeps:** the worker goes its way, and the others find in the files what they may find,
unless an operation on the files of the cache fails. -/
theorem advanced_step (hgot : ∀ d ∈ got, d.1 ∈ sh.own ∧ d.1.Answered sh.done d.2) (hj : j ∈ sh.own)
    (hshared : sh.Shared (sh.done ++ got) t) {w : Worker} (h : w.OnTrack sh.done j)
    (hw : w.result? = none) : sh.Advanced got j (w.step sh.plan t).1 (w.step sh.plan t).2 := by
  obtain ⟨path, hpath, rfl⟩ := List.mem_map.mp hj
  cases h with
  | fresh => exact advanced_lookUp hgot hpath hshared
  | missed hread hchecked => exact advanced_compute hshared hread hchecked
  | computed hread hchecked hcomputed => exact advanced_store hpath hshared hread hchecked hcomputed
  | done => simp [Worker.result?] at hw

end Shift

/-! ### Every order -/

section Related

variable {α β : Type} {R : α → β → Prop} {as : List α} {bs : List β}

theorem exists_getElem?_of_forall₂ (h : List.Forall₂ R as bs) {i : Nat} {b : β} (hb : bs[i]? = some b) :
    ∃ a, as[i]? = some a ∧ R a b := by
  induction h generalizing i with
  | nil => simp at hb
  | @cons a b' as bs hab _ ih =>
    cases i with
    | zero =>
      obtain rfl : b' = b := by simpa using hb
      exact ⟨a, rfl, hab⟩
    | succ i => exact ih (by simpa using hb)

theorem forall₂_set (h : List.Forall₂ R as bs) {i : Nat} {a : α} {b : β} (ha : as[i]? = some a)
    (hab : R a b) : List.Forall₂ R as (bs.set i b) := by
  induction h generalizing i with
  | nil => simp at ha
  | @cons a' b' as bs hab' htail ih =>
    cases i with
    | zero =>
      obtain rfl : a' = a := by simpa using ha
      exact .cons hab htail
    | succ i => exact .cons hab' (ih (by simpa using ha))

end Related

namespace Crew

variable {sh : Shift} {done : List (Task × Result)} {crew : Crew} {js : List Task} {ws : List Worker}

/-- The tasks of the workers that are done, with their results. -/
def finished (js : List Task) (ws : List Worker) : List (Task × Result) :=
  (js.zip ws).flatMap fun x => x.2.finished x.1

/-- A worker that gets done is one more. -/
theorem mem_finished_set {i : Nat} {j : Task} {w w' : Worker} (hj : js[i]? = some j)
    (hw : ws[i]? = some w) (hnone : w.result? = none) (d : Task × Result) :
    d ∈ finished js (ws.set i w') ↔ d ∈ finished js ws ∨ d ∈ w'.finished j := by
  induction js generalizing ws i with
  | nil => simp at hj
  | cons j₁ js ih =>
    cases ws with
    | nil => simp at hw
    | cons w₁ ws =>
      have hcons : ∀ (w : Worker) (ws : List Worker),
          finished (j₁ :: js) (w :: ws) = w.finished j₁ ++ finished js ws := fun _ _ => rfl
      cases i with
      | zero =>
        obtain rfl : j₁ = j := by simpa using hj
        obtain rfl : w₁ = w := by simpa using hw
        have hnothing : w₁.finished j₁ = [] := by
          rw [Worker.finished, hnone]
          rfl
        rw [List.set_cons_zero, hcons, hcons, hnothing, List.nil_append, List.mem_append, or_comm]
      | succ i =>
        rw [List.set_cons_succ, hcons, hcons, List.mem_append, List.mem_append,
          ih (by simpa using hj) (by simpa using hw), or_assoc]

/-- The workers that are done have their answers. -/
theorem answered_of_finished (h : List.Forall₂ (Worker.OnTrack done) js ws) :
    ∀ d ∈ finished js ws, d.1 ∈ js ∧ d.1.Answered done d.2 := by
  intro d hd
  obtain ⟨⟨j, w⟩, hzip, hfinished⟩ := List.mem_flatMap.mp hd
  obtain ⟨r, hr, rfl⟩ := List.mem_map.mp hfinished
  have htrack : w.OnTrack done j := (List.forall₂_iff_zip.mp h).2 hzip
  cases htrack with
  | done hanswered =>
    obtain rfl : r = _ := by simpa [Worker.result?] using hr
    exact ⟨(List.of_mem_zip hzip).1, hanswered⟩
  | fresh | missed | computed => simp [Worker.result?] at hr

/-- Where the ways end. -/
theorem answered_of_done (h : List.Forall₂ (Worker.OnTrack done) js ws)
    (hdone : ∀ w ∈ ws, ∃ r, w = .done r) :
    List.Forall₂ (Task.Answered done) js (ws.filterMap Worker.result?) ∧
      finished js ws = js.zip (ws.filterMap Worker.result?) := by
  induction h with
  | nil => exact ⟨.nil, rfl⟩
  | cons htrack _ ih =>
    rw [List.forall_mem_cons] at hdone
    obtain ⟨⟨r, rfl⟩, hrest⟩ := hdone
    obtain ⟨hanswered, hfinished⟩ := ih hrest
    cases htrack with
    | done hanswered' => exact ⟨.cons hanswered' hanswered, congrArg _ hfinished⟩

/-- All workers go their way. -/
structure Sound (sh : Shift) (crew : Crew) : Prop where
  /-- The workers are those for the files, in order. -/
  workers : List.Forall₂ (Worker.OnTrack sh.done) sh.own crew.workers
  /-- They find in the files what they may find. -/
  files : sh.Shared (sh.done ++ finished sh.own crew.workers) crew.files

/-- For some worker an operation on the files of the cache failed. -/
def Broken (crew : Crew) : Prop := ∃ r, .done r ∈ crew.workers ∧ r.FilesFailed

/-- A worker that is done has no more to do. -/
theorem turn_of_done {plan : Plan} {i : Nat} {r : Result} (h : crew.workers[i]? = some (.done r)) :
    crew.turn plan i = crew := by
  obtain ⟨hi, heq⟩ := List.getElem?_eq_some_iff.mp h
  have hset : crew.workers.set i (.done r) = crew.workers := by
    rw [← heq]
    exact List.set_getElem_self hi
  rw [turn_of_some h, Worker.step, hset]

theorem Broken.turn {plan : Plan} (h : crew.Broken) (i : Nat) : (crew.turn plan i).Broken := by
  obtain ⟨r, hmem, hfailed⟩ := h
  obtain ⟨j, hj⟩ := List.mem_iff_getElem?.mp hmem
  refine ⟨r, List.mem_iff_getElem?.mpr ⟨j, ?_⟩, hfailed⟩
  by_cases hij : j = i
  · rw [turn_of_done (hij ▸ hj)]
    exact hj
  · rw [getElem?_turn_of_ne hij]
    exact hj

theorem sound_start {t : FileTree} (h : sh.Shared sh.done t) : (start t sh.paths).Sound sh := by
  have hnothing : finished sh.own (start t sh.paths).workers = [] := by
    simp [finished, start, Shift.own, Plan.tasks, List.zip_map', Worker.finished, Worker.result?]
  constructor
  · show List.Forall₂ _ (sh.paths.map _) (sh.paths.map Worker.fresh)
    rw [List.forall₂_map_left_iff, List.forall₂_map_right_iff, List.forall₂_same]
    exact fun path _ => .fresh
  · rw [hnothing, List.append_nil]
    exact h

/-- What a turn keeps. -/
theorem Sound.turn (h : crew.Sound sh) (i : Nat) :
    (crew.turn sh.plan i).Broken ∨ (crew.turn sh.plan i).Sound sh := by
  cases hw : crew.workers[i]? with
  | none =>
    rw [turn_of_none hw]
    exact .inr h
  | some w =>
    obtain ⟨j, hj, htrack⟩ := exists_getElem?_of_forall₂ h.workers hw
    cases hresult : w.result? with
    | some r =>
      obtain rfl : w = .done r := by
        cases w with
        | done r' => rw [Option.some.inj hresult]
        | fresh | missed | computed => simp [Worker.result?] at hresult
      rw [turn_of_done hw]
      exact .inr h
    | none =>
      rcases Shift.advanced_step (answered_of_finished h.workers) (List.mem_of_getElem? hj) h.files
        htrack hresult with ⟨r, hdone, hfailed⟩ | ⟨htrack', hshared⟩
      · refine .inl ⟨r, List.mem_iff_getElem?.mpr ⟨i, ?_⟩, hfailed⟩
        rw [getElem?_turn_self hw, hdone]
      · rw [turn_of_some hw]
        refine .inr ⟨forall₂_set h.workers hj htrack', hshared.congr fun d => ?_⟩
        rw [List.mem_append, List.mem_append, List.mem_append, mem_finished_set hj hw hresult, or_assoc]

/-- What all turns keep, in whatever order they are taken. -/
theorem Sound.play (schedule : List Nat) (h : crew.Broken ∨ crew.Sound sh) :
    (crew.play sh.plan schedule).Broken ∨ (crew.play sh.plan schedule).Sound sh := by
  induction schedule generalizing crew with
  | nil => exact h
  | cons i schedule ih =>
    refine ih ?_
    rcases h with hbroken | hsound
    · exact .inl (hbroken.turn i)
    · exact hsound.turn i

/-- **The answers do not depend on the order.**  If the workers take turns in any order, and each of them
has three or more, then every file gets what the files before the command account for, and the cache holds
what was computed for those and for the files of the command, unless an operation on its files fails. -/
theorem answered_inTurns (sh : Shift) {t : FileTree} {schedule : List Nat} (hshared : sh.Shared sh.done t)
    (hturns : ∀ i < sh.paths.length, 3 ≤ schedule.count i)
    (hfiles : ∀ r ∈ (inTurns schedule sh.plan t sh.paths).1, ¬ r.FilesFailed) :
    List.Forall₂ (Task.Answered sh.done) sh.own (inTurns schedule sh.plan t sh.paths).1 ∧
      sh.Shared (sh.done ++ sh.own.zip (inTurns schedule sh.plan t sh.paths).1)
        (inTurns schedule sh.plan t sh.paths).2 := by
  rcases Sound.play schedule (.inr (sound_start hshared)) with ⟨r, hmem, hfailed⟩ | hsound
  · exact absurd hfailed (hfiles r (List.mem_filterMap.mpr ⟨.done r, hmem, rfl⟩))
  · obtain ⟨hanswered, hfinished⟩ := answered_of_done hsound.workers fun w hw => done_of_turns hturns hw
    have hend := hsound.files
    rw [hfinished] at hend
    exact ⟨hanswered, hend⟩

end Crew

end Midend.Cli
