import Midend.Proofs.Cli.WorkerAnswers

/-!
# Workers that share a cache

A cache can be trusted if each of its entries was computed for its key, from a text that came up.  The
steps of a worker keep that: what it stores was computed just before.  And what it finds was computed
from its own text, if no two texts that come up have the same key by accident.

The key does not tell whether a result was verified.  So a file that would fail to be verified may find a
result, if one of the files before has got one for the same text; then the failure goes unchecked.

## Main definitions

* `Distinct`: keys tell the texts that come up apart.
* `Trusted`: the entries of a cache were computed for their keys.
* `Task`, `CollisionFree`: what commands are asked to do, and that no digests coincide.
* `Task.Unchecked`, `Task.Answered`: a result is found that would fail to be verified; a file gets what it
  would get without a cache, but for that.
* `Recorded`: the entries of a cache are those for which files have got results.

## Main results

* `Trusted.recall`: where an entry comes from.
* `Worker.lookUp_cached`, `Worker.store_cached`: the first and the last step of a worker.
* `Task.unchecked_append`: the files of one command do not answer for each other.
* `Trusted.answered`: what a file gets that finds an entry.
-/

namespace Midend.Cli

open Files (FileTree)
open Cache (Entry Key keyBytes sha256 stamped keep)

/-- No two of the texts that come up have the same key by accident. -/
def Distinct (occurs : Plan → ByteArray → Prop) : Prop :=
  ∀ ⦃plan plan' : Plan⦄ ⦃source source' : ByteArray⦄, occurs plan source → occurs plan' source' →
    Key.ofSource source plan.options = Key.ofSource source' plan'.options →
    keyBytes source.data.toList plan.options = keyBytes source'.data.toList plan'.options

/-- The files of the cache hold a map of entries, each of which was computed for its key. -/
structure Trusted (occurs : Plan → ByteArray → Prop) (c : Cache) (t : FileTree)
    (kept : Key → Option Entry) : Prop where
  /-- The files hold the map. -/
  holds : c.Holds t kept
  /-- Where an entry comes from. -/
  origin {k : Key} {e : Entry} : kept k = some e → ∃ plan path source e₀ r, occurs plan source ∧
    k = .ofSource source plan.options ∧ Worker.Computed plan path source e₀ r ∧ e = stamped e₀

variable {occurs : Plan → ByteArray → Prop} {c : Cache} {t t' : FileTree} {kept : Key → Option Entry}
  {plan : Plan} {path : String} {source : ByteArray}

theorem trusted_of_empty (h : c.Empty t) : Trusted occurs c t fun _ => none :=
  ⟨h.holds, fun hk => by simp at hk⟩

/-- An entry that is found was computed from the same text, with alike options. -/
theorem Trusted.recall {e : Entry} (h : Trusted occurs c t kept) (hdistinct : Distinct occurs)
    (hoccurs : occurs plan source) (hk : kept (.ofSource source plan.options) = some e) :
    ∃ plan₁ path₁ e₁ r₁, occurs plan₁ source ∧ plan₁.options.Alike plan.options ∧
      Worker.Computed plan₁ path₁ source e₁ r₁ ∧ e = stamped e₁ := by
  obtain ⟨plan₁, path₁, source₁, e₁, r₁, hoccurs₁, hkey, hcomputed, rfl⟩ := h.origin hk
  obtain ⟨rfl, halike⟩ := Cache.alike_of_keyBytes_eq (hdistinct hoccurs₁ hoccurs hkey.symm)
  exact ⟨plan₁, path₁, e₁, r₁, hoccurs₁, halike, hcomputed, rfl⟩

theorem Trusted.untouched (h : Trusted occurs c t kept) (hsame : c.Untouched t t') :
    Trusted occurs c t' kept := ⟨h.holds.untouched hsame, h.origin⟩

theorem Trusted.onlyMakes {places : List Files.Place} (h : Trusted occurs c t kept)
    (hmakes : Files.FileTree.OnlyMakes places t t') : Trusted occurs c t' kept :=
  ⟨h.holds.onlyMakes hmakes, h.origin⟩

namespace Worker

variable (hcache : plan.cache = some c)

include hcache

/-- The first step: the entry is found if there is one, unless the files fail. -/
theorem lookUp_cached (h : c.Holds t kept) (hread : t.read path = .ok source) :
    (∃ r, lookUp plan t path = .done r ∧ r.FilesFailed) ∨
      lookUp plan t path = .missed path source (.ofSource source plan.options) ∧
        (plan.dump = true ∨ kept (.ofSource source plan.options) = none) ∨
      ∃ e, lookUp plan t path = .done (replay plan path e) ∧ plan.dump = false ∧
        kept (.ofSource source plan.options) = some e := by
  rw [lookUp]
  simp only [hread, hcache]
  cases hdump : plan.dump with
  | true => exact .inr (.inl ⟨rfl, .inl rfl⟩)
  | false =>
    rw [if_neg Bool.false_ne_true]
    cases hget : c.get t (.ofSource source plan.options) with
    | error err =>
      obtain ⟨e, rfl | rfl⟩ := h.get_error hget
      · exact .inl ⟨_, rfl, e, .inl rfl⟩
      · exact .inl ⟨_, rfl, e, .inr ⟨_, rfl⟩⟩
    | ok found =>
      obtain rfl := h.get hget
      cases hfound : kept (.ofSource source plan.options) with
      | none => exact .inr (.inl ⟨rfl, .inr rfl⟩)
      | some e => exact .inr (.inr ⟨e, rfl, rfl, rfl⟩)

/-- The last step: the entry is stored, unless the files fail. -/
theorem store_cached {e : Entry} {r : Result} (h : Trusted occurs c t kept)
    (hoccurs : occurs plan source) (hcomputed : Computed plan path source e r) (hfits : e.Fits) :
    (∃ r', (store plan t (.ofSource source plan.options) e r).1 = .done r' ∧ r'.FilesFailed) ∨
      (store plan t (.ofSource source plan.options) e r).1 = .done r ∧
      Trusted occurs c (store plan t (.ofSource source plan.options) e r).2
        (keep kept (.ofSource source plan.options) (stamped e)) ∧
      c.Alters t (store plan t (.ofSource source plan.options) e r).2 := by
  rw [store]
  simp only [hcache]
  cases hput : c.put t (.ofSource source plan.options) e with
  | mk outcome t' =>
    cases outcome with
    | error err =>
      obtain ⟨f, rfl⟩ := (Cache.putOn_eq_error hput).1
      exact .inl ⟨_, rfl, f, .inl rfl⟩
    | ok =>
      refine .inr ⟨rfl, ⟨h.holds.putOn hput (Cache.decode?_stamped hfits), fun {k e'} hk => ?_⟩,
        Cache.alters_putOn hput⟩
      rw [keep] at hk
      split at hk
      · next heq => exact ⟨plan, path, source, e, r, hoccurs, heq, hcomputed, (Option.some.inj hk).symm⟩
      · exact h.origin hk

end Worker

/-! ### Tasks -/

/-- A file that a command is asked to optimize. -/
structure Task where
  /-- The files when the command starts. -/
  files : FileTree
  /-- What is asked for. -/
  plan : Plan
  /-- The path of the file. -/
  path : String
  deriving Inhabited

namespace Task

/-- What the file gets without a cache. -/
def uncached (j : Task) : Result := Worker.uncached j.plan j.files j.path

/-- The text of the file. -/
def Reads (j : Task) (source : ByteArray) : Prop := j.files.read j.path = .ok source

/-- The texts of the entry that is stored for the file are not too long for the format. -/
def Fits (j : Task) : Prop :=
  ∀ source, j.Reads source →
    ∀ e ∈ (Worker.compute j.plan j.path source (.ofSource source j.plan.options)).pending?, e.Fits

end Task

/-- The tasks of a command. -/
def Plan.tasks (plan : Plan) (t : FileTree) (paths : List String) : List Task :=
  paths.map fun path => ⟨t, plan, path⟩

/-- No two of the tasks have different inputs with the same digest. -/
def CollisionFree (tasks : List Task) : Prop :=
  ∀ j ∈ tasks, ∀ j' ∈ tasks, ∀ source source', j.Reads source → j'.Reads source' →
    sha256 (keyBytes source.data.toList j.plan.options) =
      sha256 (keyBytes source'.data.toList j'.plan.options) →
    keyBytes source.data.toList j.plan.options = keyBytes source'.data.toList j'.plan.options

/-- Files with the same text do no harm. -/
theorem collisionFree_of_reads {tasks : List Task} {source : ByteArray} {o : Options}
    (halike : ∀ j ∈ tasks, j.plan.options.Alike o) (h : ∀ j ∈ tasks, ∀ b, j.Reads b → b = source) :
    CollisionFree tasks := by
  intro j hj j' hj' b b' hreads hreads' _
  rw [h j hj b hreads, h j' hj' b' hreads', Cache.keyBytes_congr (halike j hj),
    Cache.keyBytes_congr (halike j' hj')]

/-- The texts that come up in some tasks. -/
def Occurs (tasks : List Task) (plan : Plan) (source : ByteArray) : Prop :=
  ∃ j ∈ tasks, j.plan = plan ∧ j.Reads source

theorem CollisionFree.distinct {tasks : List Task} (h : CollisionFree tasks) :
    Distinct (Occurs tasks) := by
  rintro plan plan' source source' ⟨j, hj, rfl, hread⟩ ⟨j', hj', rfl, hread'⟩ hkey
  exact h j hj j' hj' source source' hread hread' (congrArg Key.bytes hkey)

/-! ### Results that go unchecked -/

namespace Task

/-- The task without verifying. -/
def unverified (j : Task) : Task := { j with plan := j.plan.unverified }

/-- The files have the same text, and the options differ in verifying only. -/
def SameInput (j j' : Task) : Prop :=
  ∃ source, j.Reads source ∧ j'.Reads source ∧ j.plan.options.Alike j'.plan.options

/-- The file would fail to be verified, but one of the files before got the same result without being
verified, or without the failure being noticed. -/
def Unchecked (done : List (Task × Result)) (j : Task) : Prop :=
  j.plan.dump = false ∧ j.plan.options.verify = true ∧
    (∃ err, j.uncached.failure = some (.verify err)) ∧
    ∃ d ∈ done, d.1.SameInput j ∧ d.2.failure = none

/-- The file gets what it would get without a cache, unless it is unchecked; then it gets what it would
get without verifying. -/
def Answered (done : List (Task × Result)) (j : Task) (r : Result) : Prop :=
  (r.Agrees j.uncached ↔ ¬ j.Unchecked done) ∧
    (j.Unchecked done → r.failure = none ∧ r.Agrees j.unverified.uncached)

variable {done own : List (Task × Result)} {j j' : Task} {r : Result} {source : ByteArray}

theorem not_unchecked_nil (j : Task) : ¬ j.Unchecked [] := by
  rintro ⟨-, -, -, d, hd, -⟩
  exact List.not_mem_nil hd

theorem answered_of_agrees (hchecked : ¬ j.Unchecked done) (hagrees : r.Agrees j.uncached) :
    j.Answered done r :=
  ⟨⟨fun _ => hchecked, fun _ => hagrees⟩, fun h => absurd h hchecked⟩

/-- A file gets a result if another one with the same text does. -/
theorem failure_eq_none_of_same (hplan : j.plan = j'.plan) (hdump : j.plan.dump = false)
    (hreads : j.Reads source) (hreads' : j'.Reads source) (h : j.uncached.failure = none) :
    j'.uncached.failure = none := by
  rcases Worker.computed_or_done j.plan j.path source (.ofSource source j.plan.options) with
    ⟨e, r, hcomputed⟩ | ⟨r, f, hdone, hfailure, -⟩
  · rw [hplan] at hdump hcomputed
    obtain ⟨e', r', hcomputed', -⟩ := hcomputed.replay ⟨rfl, rfl, rfl⟩ rfl hdump id j'.path
    rw [uncached, Worker.uncached_of_computed hreads' hcomputed']
    exact hcomputed'.failure
  · rw [uncached, Worker.uncached_of_ok hreads, hdone] at h
    exact absurd (hfailure.symm.trans h) (Option.some_ne_none f)

/-- **The files of one command do not answer for each other.**  If they would fail to be verified, then
what one of them finds comes from the files before. -/
theorem unchecked_append (hown : ∀ d ∈ own, d.1.plan = j.plan ∧ d.1.Answered done d.2) :
    j.Unchecked (done ++ own) ↔ j.Unchecked done := by
  constructor
  · rintro ⟨hdump, hverify, ⟨err, hfails⟩, d, hd, ⟨source, hreads, hreads', halike⟩, hnone⟩
    rcases List.mem_append.mp hd with hd | hd
    · exact ⟨hdump, hverify, ⟨err, hfails⟩, d, hd, ⟨source, hreads, hreads', halike⟩, hnone⟩
    · obtain ⟨hplan, hanswered⟩ := hown d hd
      -- Without a cache the other file would fail as well, so it is unchecked itself.
      have hdiffers : ¬ d.2.Agrees d.1.uncached := by
        intro hagrees
        have hsame := failure_eq_none_of_same hplan (hplan ▸ hdump) hreads hreads'
          (hagrees.failure.symm.trans hnone)
        rw [hfails] at hsame
        simp at hsame
      obtain ⟨-, -, -, d', hd', ⟨source', hreads₁, hreads₂, halike'⟩, hnone'⟩ :=
        Classical.not_not.mp fun hchecked => hdiffers (hanswered.1.mpr hchecked)
      obtain rfl := Except.ok.inj (hreads₂.symm.trans hreads)
      exact ⟨hdump, hverify, ⟨err, hfails⟩, d', hd', ⟨source', hreads₁, hreads', hplan ▸ halike'⟩, hnone'⟩
  · rintro ⟨hdump, hverify, hfails, d, hd, hsame⟩
    exact ⟨hdump, hverify, hfails, d, List.mem_append_left _ hd, hsame⟩

theorem answered_append (hown : ∀ d ∈ own, d.1.plan = j.plan ∧ d.1.Answered done d.2) :
    j.Answered (done ++ own) r ↔ j.Answered done r := by
  rw [Answered, Answered, unchecked_append hown]

end Task

/-- The cache holds an entry just if one of the files before got a result for its key. -/
def Recorded (kept : Key → Option Entry) (done : List (Task × Result)) : Prop :=
  ∀ k, kept k ≠ none ↔ ∃ d ∈ done, d.2.failure = none ∧
    ∃ source, d.1.Reads source ∧ k = .ofSource source d.1.plan.options

theorem recorded_nil : Recorded (fun _ => none) [] := by
  intro k
  simp

section Recorded

variable {done done' : List (Task × Result)} {j : Task} {r : Result} (hrecorded : Recorded kept done)

include hrecorded

theorem Recorded.congr (hsame : ∀ d, d ∈ done ↔ d ∈ done') : Recorded kept done' := by
  intro k
  rw [hrecorded k]
  simp only [hsame]

/-- The record goes on. -/
theorem Recorded.concat {kept' : Key → Option Entry} (h : ∀ k, kept' k ≠ none ↔ kept k ≠ none ∨
      r.failure = none ∧ ∃ source, j.Reads source ∧ k = .ofSource source j.plan.options) :
    Recorded kept' (done ++ [(j, r)]) := by
  intro k
  rw [h k, hrecorded k]
  constructor
  · rintro (⟨d, hd, hfound⟩ | hfound)
    · exact ⟨d, List.mem_append_left _ hd, hfound⟩
    · exact ⟨(j, r), List.mem_append_right _ (List.mem_singleton_self _), hfound⟩
  · rintro ⟨d, hd, hfound⟩
    rcases List.mem_append.mp hd with hd | hd
    · exact .inl ⟨d, hd, hfound⟩
    · obtain rfl := List.mem_singleton.mp hd
      exact .inr hfound

theorem Recorded.failed (hr : r.failure ≠ none) : Recorded kept (done ++ [(j, r)]) :=
  hrecorded.concat fun _ => ⟨.inl, fun h => h.elim id fun hnone => absurd hnone.1 hr⟩

theorem Recorded.recalled (hreads : j.Reads source)
    (hkept : kept (.ofSource source j.plan.options) ≠ none) : Recorded kept (done ++ [(j, r)]) := by
  refine hrecorded.concat fun k => ⟨.inl, fun h => h.elim id ?_⟩
  rintro ⟨-, source', hreads', rfl⟩
  obtain rfl := Except.ok.inj (hreads.symm.trans hreads')
  exact hkept

theorem Recorded.stored (hreads : j.Reads source) (hr : r.failure = none) (e : Entry) :
    Recorded (keep kept (.ofSource source j.plan.options) e) (done ++ [(j, r)]) := by
  refine hrecorded.concat fun k => ?_
  rw [keep]
  constructor
  · intro h
    split at h
    · next heq => exact .inr ⟨hr, source, hreads, heq⟩
    · exact .inl h
  · rintro (h | ⟨-, source', hreads', rfl⟩)
    · split
      · simp
      · exact h
    · obtain rfl := Except.ok.inj (hreads.symm.trans hreads')
      rw [if_pos rfl]
      simp

/-- A file for which there is no entry is not unchecked. -/
theorem Recorded.not_unchecked (hmissed : ∀ source, j.Reads source →
      j.plan.dump = true ∨ kept (.ofSource source j.plan.options) = none) : ¬ j.Unchecked done := by
  rintro ⟨hdump, -, -, d, hd, ⟨source, hreads, hreads', halike⟩, hnone⟩
  have hkept := (hrecorded (.ofSource source j.plan.options)).mpr
    ⟨d, hd, hnone, source, hreads, by
      rw [Key.ofSource, Key.ofSource, Cache.keyBytes_congr halike]⟩
  rcases hmissed source hreads' with hdump' | hmissed
  · rw [hdump] at hdump'
    exact Bool.false_ne_true hdump'
  · exact hkept hmissed

/-- **What a file gets that finds an entry.** -/
theorem Trusted.answered {tasks : List Task} {e : Entry} (h : Trusted (Occurs tasks) c t kept)
    (hcolor : ∀ j' ∈ tasks, j'.plan.color = j.plan.color) (hfree : CollisionFree tasks) (hj : j ∈ tasks)
    (hdone : ∀ d ∈ done, d.1 ∈ tasks) (hreads : j.Reads source) (hdump : j.plan.dump = false)
    (hkept : kept (.ofSource source j.plan.options) = some e) :
    j.Answered done (Worker.replay j.plan j.path e) := by
  obtain ⟨plan₁, path₁, e₁, r₁, ⟨j₁, hj₁, rfl, -⟩, halike, hcomputed, rfl⟩ :=
    h.recall hfree.distinct ⟨j, hj, rfl, hreads⟩ hkept
  -- The entry answers for the file, if it need not be verified.
  have halike' : j₁.plan.options.Alike j.plan.unverified.options :=
    ⟨halike.maxRounds, halike.peephole, halike.constProp⟩
  obtain ⟨e', r', hcomputed', hreplay⟩ := hcomputed.replay halike' (hcolor j₁ hj₁) hdump
    (fun hv => absurd hv Bool.false_ne_true) j.path
  have hunverified : j.unverified.uncached = r' := Worker.uncached_of_computed hreads hcomputed'
  have hagrees : (Worker.replay j.plan j.path (stamped e₁)).Agrees j.unverified.uncached := by
    rw [hunverified]
    exact hreplay
  have hnone : (Worker.replay j.plan j.path (stamped e₁)).failure = none := rfl
  rcases Worker.uncached_eq_or_verify j.plan j.files j.path with heq | ⟨hverify, err, hfails⟩
  · have hsame : j.uncached = j.unverified.uncached := heq
    have hchecked : ¬ j.Unchecked done := by
      rintro ⟨-, -, ⟨err, hfails⟩, -⟩
      rw [hsame, ← hagrees.failure, hnone] at hfails
      simp at hfails
    exact Task.answered_of_agrees hchecked (hsame ▸ hagrees)
  · -- The failure goes unnoticed: the entry comes from one of the files before.
    have hunchecked : j.Unchecked done := by
      obtain ⟨d, hd, hfailure, source', hreads', hkey⟩ :=
        (hrecorded (.ofSource source j.plan.options)).mp (by rw [hkept]; simp)
      obtain ⟨rfl, halike'⟩ := Cache.alike_of_keyBytes_eq
        (hfree j hj d.1 (hdone d hd) source source' hreads hreads' (congrArg Key.bytes hkey))
      exact ⟨hdump, hverify, ⟨err, hfails⟩, d, hd, ⟨source, hreads', hreads, halike'.maxRounds.symm,
        halike'.peephole.symm, halike'.constProp.symm⟩, hfailure⟩
    refine ⟨⟨fun hagrees' => ?_, fun hchecked => absurd hunchecked hchecked⟩, fun _ => ⟨hnone, hagrees⟩⟩
    have hsucceeds := hagrees'.failure
    rw [hnone, Task.uncached, hfails] at hsucceeds
    simp at hsucceeds

end Recorded

end Midend.Cli
