import Midend.Files.Path

/-!
# The names of tidied and joined paths

Tidying takes the names of a path one by one, and keeps those that matter: after some steps up a tidied
path only goes down.  A path that is tidy stays as it is, so that names which lead down can be joined
to a directory one after the other or all at once.

## Main definitions

* `Normal`: a name that leads down.
* `Tidied`: the names of a tidied path.
* `tidyStep`: what one more name does to them.
* `tidyList`: the names of the tidied form of a path.

## Main results

* `names_intercalate`, `names_tidy`: the names of a path that was put together, and of a tidied one.
* `names_joinPaths`, `tidyList_joinPaths`: those of joined paths.
-/

namespace Midend.Files

/-! ### Names -/

/-- There is no slash in the name. -/
def Plain (n : String) : Prop := '/' ∉ n.toList

instance (n : String) : Decidable (Plain n) := inferInstanceAs (Decidable ('/' ∉ n.toList))

/-- A name that leads from a directory to something in it. -/
structure Normal (n : String) : Prop where
  /-- There is no slash in it. -/
  plain : Plain n
  /-- It is not empty. -/
  ne_empty : n ≠ ""
  /-- It does not mean the directory. -/
  ne_dot : n ≠ "."
  /-- It does not mean the directory above. -/
  ne_dots : n ≠ ".."

theorem splitSlashes_ne_nil (l : List Char) : splitSlashes l ≠ [] := by
  induction l with
  | nil => simp [splitSlashes]
  | cons c l ih =>
    rw [splitSlashes]
    split
    · simp
    · cases h : splitSlashes l with
      | nil => exact absurd h ih
      | cons piece more => simp

theorem splitSlashes_append (l l' : List Char) :
    splitSlashes (l ++ '/' :: l') = splitSlashes l ++ splitSlashes l' := by
  induction l with
  | nil => simp [splitSlashes]
  | cons c l ih =>
    rw [List.cons_append, splitSlashes, splitSlashes, ih]
    split
    · rfl
    · cases h : splitSlashes l with
      | nil => exact absurd h (splitSlashes_ne_nil l)
      | cons piece more => rfl

theorem splitSlashes_of_not_mem {l : List Char} (h : '/' ∉ l) : splitSlashes l = [l] := by
  induction l with
  | nil => rfl
  | cons c l ih =>
    rw [List.mem_cons, not_or] at h
    rw [splitSlashes, if_neg (Ne.symm h.1), ih h.2]

theorem not_mem_of_mem_splitSlashes {l piece : List Char} (h : piece ∈ splitSlashes l) :
    '/' ∉ piece := by
  induction l generalizing piece with
  | nil =>
    rw [splitSlashes, List.mem_singleton] at h
    rw [h]
    exact List.not_mem_nil
  | cons c l ih =>
    rw [splitSlashes] at h
    split at h
    · rcases List.mem_cons.mp h with rfl | h
      · exact List.not_mem_nil
      · exact ih h
    · next hc =>
      cases hl : splitSlashes l with
      | nil => exact absurd hl (splitSlashes_ne_nil l)
      | cons first more =>
        rw [hl] at h ih
        rcases List.mem_cons.mp h with rfl | h
        · rw [List.mem_cons, not_or]
          exact ⟨Ne.symm hc, ih List.mem_cons_self⟩
        · exact ih (List.mem_cons_of_mem first h)

theorem plain_of_mem_names {path n : String} (h : n ∈ names path) : Plain n := by
  obtain ⟨piece, hpiece, rfl⟩ := List.mem_map.mp h
  rw [Plain, String.toList_ofList]
  exact not_mem_of_mem_splitSlashes hpiece

theorem names_of_plain {n : String} (h : Plain n) : names n = [n] := by
  rw [names, splitSlashes_of_not_mem h, List.map_singleton, String.ofList_toList]

theorem intercalate_splitSlashes (l : List Char) : ['/'].intercalate (splitSlashes l) = l := by
  induction l with
  | nil => rfl
  | cons c l ih =>
    rw [splitSlashes]
    split
    · next hc =>
      rw [List.intercalate_cons_of_ne_nil (splitSlashes_ne_nil l), ih, hc]
      rfl
    · cases hl : splitSlashes l with
      | nil => exact absurd hl (splitSlashes_ne_nil l)
      | cons piece more =>
        rw [hl] at ih
        cases more with
        | nil =>
          rw [List.intercalate_singleton] at ih
          rw [ih]
          exact List.intercalate_singleton
        | cons piece' more =>
          rw [List.intercalate_cons_cons] at ih
          dsimp only
          rw [List.intercalate_cons_cons, ← ih]
          rfl

/-- The names of a path tell the path. -/
theorem names_injective {path path' : String} (h : names path = names path') : path = path' := by
  have hpieces : splitSlashes path.toList = splitSlashes path'.toList :=
    (List.map_inj_right fun _ _ => String.ofList_injective).mp h
  rw [← String.toList_inj, ← intercalate_splitSlashes path.toList, hpieces, intercalate_splitSlashes]

theorem names_append_slash (path path' : String) :
    names (path ++ "/" ++ path') = names path ++ names path' := by
  have hslash : ("/" : String).toList = ['/'] := rfl
  rw [names, String.toList_append, String.toList_append, hslash, List.append_assoc]
  show (splitSlashes (path.toList ++ '/' :: path'.toList)).map String.ofList = _
  rw [splitSlashes_append, List.map_append]
  rfl

theorem intercalate_cons_cons (path m : String) (ms : List String) :
    "/".intercalate (path :: m :: ms) = path ++ "/" ++ "/".intercalate (m :: ms) := by
  rw [← String.toList_inj]
  simp only [String.toList_append, String.toList_intercalate, List.map_cons, List.intercalate_cons_cons]

/-- The names of a path with more names behind it. -/
theorem names_intercalate (path : String) {ms : List String} (hms : ∀ m ∈ ms, Plain m) :
    names ("/".intercalate (path :: ms)) = names path ++ ms := by
  induction ms generalizing path with
  | nil =>
    have hone : "/".intercalate [path] = path := by
      rw [← String.toList_inj, String.toList_intercalate]
      simp
    rw [hone, List.append_nil]
  | cons m ms ih =>
    rw [List.forall_mem_cons] at hms
    rw [intercalate_cons_cons, names_append_slash, ih m hms.2, names_of_plain hms.1]
    rfl

theorem isAbsolute_append {path : String} (h : path ≠ "") (s : String) :
    isAbsolute (path ++ s) = isAbsolute path := by
  rw [isAbsolute, isAbsolute, String.toList_append]
  cases hl : path.toList with
  | nil => exact absurd (String.toList_inj.mp hl) h
  | cons c l => rfl

theorem isAbsolute_intercalate {path : String} (h : path ≠ "") (ms : List String) :
    isAbsolute ("/".intercalate (path :: ms)) = isAbsolute path := by
  cases ms with
  | nil =>
    rw [isAbsolute, isAbsolute, String.toList_intercalate]
    simp
  | cons m ms => rw [intercalate_cons_cons, String.append_assoc, isAbsolute_append h]

/-! ### Tidied paths -/

/-- The names of a tidied path, the last one first: it goes up only at its beginning, and only if it
does not start at the root. -/
inductive Tidied (absolute : Bool) : List String → Prop where
  /-- No names. -/
  | nil : Tidied absolute []
  /-- A name that leads down. -/
  | down {n : String} {l : List String} : Normal n → Tidied absolute l → Tidied absolute (n :: l)
  /-- A name that leads up. -/
  | up {l : List String} : absolute = false → (∀ m ∈ l, m = "..") → Tidied absolute l →
    Tidied absolute (".." :: l)

section Tidied

variable {absolute : Bool}

/-- What one more name does to tidied names, the last one first. -/
def tidyStep (absolute : Bool) (done : List String) (n : String) : List String :=
  if n = "" ∨ n = "." then done
  else if n = ".." then
    if done.head? = some ".." ∨ done = [] ∧ absolute = false then n :: done else done.tail
  else n :: done

theorem tidyNames_eq_foldl (done ns : List String) :
    tidyNames absolute done ns = ns.foldl (tidyStep absolute) done := by
  induction ns generalizing done with
  | nil => cases done <;> rfl
  | cons n ns ih =>
    rw [List.foldl_cons, ← ih, tidyNames.eq_def, tidyStep]
    by_cases hskip : n = "" ∨ n = "."
    · simp [hskip]
    · by_cases hup : n = ".."
      · cases done with
        | nil => cases absolute <;> simp [hup]
        | cons d outer => by_cases hd : d = ".." <;> simp [hup, hd]
      · simp [hskip, hup]

theorem Tidied.step {done : List String} {n : String} (h : Tidied absolute done) (hn : Plain n) :
    Tidied absolute (tidyStep absolute done n) := by
  rw [tidyStep]
  split
  · exact h
  · next hskip =>
    rw [not_or] at hskip
    split
    · next hup =>
      -- Two dots drop the name before them, unless that leads up or there is none.
      subst hup
      cases h with
      | nil =>
        cases absolute with
        | true => exact .nil
        | false => exact .up rfl (fun _ hm => absurd hm List.not_mem_nil) .nil
      | down hd hl =>
        rw [if_neg (by simpa using hd.ne_dots)]
        exact hl
      | up habs hall hl =>
        rw [if_pos (.inl rfl)]
        exact .up habs (List.forall_mem_cons.mpr ⟨rfl, hall⟩) (.up habs hall hl)
    · next hdots => exact .down ⟨hn, hskip.1, hskip.2, hdots⟩ h

theorem tidied_tidyNames {done ns : List String} (hdone : Tidied absolute done)
    (hns : ∀ n ∈ ns, Plain n) : Tidied absolute (tidyNames absolute done ns) := by
  rw [tidyNames_eq_foldl]
  induction ns generalizing done with
  | nil => exact hdone
  | cons n ns ih =>
    rw [List.forall_mem_cons] at hns
    exact ih (hdone.step hns.1) hns.2

theorem tidyNames_append (done ns ns' : List String) :
    tidyNames absolute done (ns ++ ns') = tidyNames absolute (tidyNames absolute done ns) ns' := by
  simp only [tidyNames_eq_foldl, List.foldl_append]

theorem tidyStep_normal {n : String} (h : Normal n) (done : List String) :
    tidyStep absolute done n = n :: done := by
  rw [tidyStep, if_neg (not_or.mpr ⟨h.ne_empty, h.ne_dot⟩), if_neg h.ne_dots]

theorem tidyNames_normal {done ms : List String} (hms : ∀ m ∈ ms, Normal m) :
    tidyNames absolute done ms = ms.reverse ++ done := by
  rw [tidyNames_eq_foldl]
  induction ms generalizing done with
  | nil => rfl
  | cons m ms ih =>
    rw [List.forall_mem_cons] at hms
    rw [List.foldl_cons, tidyStep_normal hms.1, ih hms.2, List.reverse_cons, List.append_assoc]
    rfl

/-- Tidying leaves tidied names alone. -/
theorem Tidied.tidyNames_reverse {l : List String} (h : Tidied absolute l) :
    tidyNames absolute [] l.reverse = l := by
  induction h with
  | nil => rfl
  | down hn hl ih =>
    rw [List.reverse_cons, tidyNames_append, ih, tidyNames_normal (by simpa using hn)]
    rfl
  | @up l habs hall hl ih =>
    rw [List.reverse_cons, tidyNames_append, ih]
    subst habs
    cases l with
    | nil => rfl
    | cons d outer =>
      obtain rfl := hall d List.mem_cons_self
      rfl

theorem Tidied.ne_empty {l : List String} (h : Tidied absolute l) : ∀ n ∈ l, n ≠ "" := by
  induction h with
  | nil => exact fun n hn => absurd hn List.not_mem_nil
  | down hn _ ih => exact List.forall_mem_cons.mpr ⟨hn.ne_empty, ih⟩
  | up _ _ _ ih => exact List.forall_mem_cons.mpr ⟨by decide, ih⟩

theorem Tidied.plain {l : List String} (h : Tidied absolute l) : ∀ n ∈ l, Plain n := by
  induction h with
  | nil => exact fun n hn => absurd hn List.not_mem_nil
  | down hn _ ih => exact List.forall_mem_cons.mpr ⟨hn.plain, ih⟩
  | up _ _ _ ih => exact List.forall_mem_cons.mpr ⟨by decide, ih⟩

end Tidied

/-- The names of the tidied form of a path. -/
def tidyList (path : String) : List String :=
  (tidyNames (isAbsolute path) [] (names path)).reverse

/-- An absolute path has an empty name in front. -/
def rootNames (path : String) : List String := if isAbsolute path then [""] else []

theorem tidied_tidyList (path : String) : Tidied (isAbsolute path) (tidyList path).reverse := by
  rw [tidyList, List.reverse_reverse]
  exact tidied_tidyNames .nil fun _ => plain_of_mem_names

theorem names_tidy {path : String} (h : tidyList path ≠ []) :
    names (tidy path) = rootNames path ++ tidyList path := by
  obtain ⟨n, ns, hlist⟩ := List.exists_cons_of_ne_nil h
  have htidied := tidied_tidyList path
  have hall : ∀ m ∈ tidyList path, m ≠ "" ∧ Plain m := fun m hm =>
    ⟨htidied.ne_empty m (List.mem_reverse.mpr hm), htidied.plain m (List.mem_reverse.mpr hm)⟩
  rw [hlist, List.forall_mem_cons] at hall
  have htext : names ("/".intercalate (tidyList path)) = tidyList path := by
    rw [hlist, names_intercalate n fun m hm => (hall.2 m hm).2, names_of_plain hall.1.2]
    rfl
  rw [tidy, rootNames]
  change names (if isAbsolute path then "/" ++ "/".intercalate (tidyList path)
    else if "/".intercalate (tidyList path) = "" then "." else "/".intercalate (tidyList path)) = _
  by_cases habs : isAbsolute path = true
  · rw [if_pos habs, if_pos habs]
    have hroot := names_append_slash "" ("/".intercalate (tidyList path))
    rw [String.empty_append, htext] at hroot
    exact hroot
  · have hne : "/".intercalate (tidyList path) ≠ "" := by
      intro heq
      rw [heq, names_of_plain (by decide)] at htext
      rw [hlist] at htext
      exact hall.1.1 (List.cons.inj htext).1.symm
    rw [if_neg habs, if_neg habs, if_neg hne, htext]
    rfl

theorem isAbsolute_tidy {path : String} (h : tidyList path ≠ []) :
    isAbsolute (tidy path) = isAbsolute path := by
  obtain ⟨n, ns, hlist⟩ := List.exists_cons_of_ne_nil h
  have htidied := tidied_tidyList path
  have hn : n ∈ (tidyList path).reverse := by
    rw [hlist]
    simp
  have hempty := htidied.ne_empty n hn
  have hplain := htidied.plain n hn
  rw [tidy]
  change isAbsolute (if isAbsolute path then "/" ++ "/".intercalate (tidyList path)
    else if "/".intercalate (tidyList path) = "" then "." else "/".intercalate (tidyList path)) = _
  cases habs : isAbsolute path with
  | true =>
    rw [if_pos rfl, isAbsolute_append (by decide)]
    rfl
  | false =>
    have hrelative : isAbsolute n = false := by
      rw [isAbsolute]
      cases hl : n.toList with
      | nil => rfl
      | cons c l =>
        have hc : c ≠ '/' := fun hc => hplain (by rw [hl, hc]; exact List.mem_cons_self)
        simpa using hc
    rw [if_neg (by decide)]
    split
    · decide
    · rw [hlist, isAbsolute_intercalate hempty, hrelative]

section Join

variable {dir : String} {ms : List String} (hms : ∀ m ∈ ms, Normal m) (hne : ms ≠ [])

include hms

/-- What is tidied when names are joined to a directory. -/
theorem exists_joinPaths (dir : String) : ∃ path, isAbsolute path = isAbsolute dir ∧
    tidyList path = tidyList dir ++ ms ∧ (ms ≠ [] → joinPaths (dir :: ms) = tidy path) := by
  have hkeep : ms.filter (· != "") = ms := by
    rw [List.filter_eq_self]
    intro m hm
    simpa using (hms m hm).ne_empty
  by_cases hdir : dir = ""
  · subst hdir
    cases ms with
    | nil => exact ⟨"", rfl, (List.append_nil _).symm, fun h => absurd rfl h⟩
    | cons m ms =>
      rw [List.forall_mem_cons] at hms
      have hplain : ∀ m ∈ ms, Plain m := fun m hm => (hms.2 m hm).plain
      have hrelative : isAbsolute ("/".intercalate (m :: ms)) = false := by
        rw [isAbsolute_intercalate hms.1.ne_empty, isAbsolute]
        cases hl : m.toList with
        | nil => rfl
        | cons c l =>
          have hc : c ≠ '/' := fun hc => hms.1.plain (by rw [hl, hc]; exact List.mem_cons_self)
          simpa using hc
      refine ⟨"/".intercalate (m :: ms), hrelative, ?_, fun _ => ?_⟩
      · rw [tidyList, hrelative, names_intercalate m hplain, names_of_plain hms.1.plain]
        rw [tidyNames_normal (by simpa using hms)]
        have hnone : tidyList "" = [] := by decide
        rw [hnone]
        simp
      · rw [joinPaths, List.filter_cons, if_neg (by decide), hkeep]
  · refine ⟨"/".intercalate (dir :: ms), isAbsolute_intercalate hdir ms, ?_, fun _ => ?_⟩
    · rw [tidyList, isAbsolute_intercalate hdir, names_intercalate dir fun m hm => (hms m hm).plain,
        tidyNames_append, tidyNames_normal hms, List.reverse_append, List.reverse_reverse]
      rfl
    · rw [joinPaths, List.filter_cons, if_pos (by simpa using hdir), hkeep]

include hne

/-- The names of joined paths: those of the tidied directory, and those behind it. -/
theorem names_joinPaths : names (joinPaths (dir :: ms)) = rootNames dir ++ (tidyList dir ++ ms) := by
  obtain ⟨path, habs, hlist, hjoin⟩ := exists_joinPaths hms dir
  have hlist' : tidyList path ≠ [] := by
    rw [hlist]
    simp [hne]
  rw [hjoin hne, names_tidy hlist', hlist, rootNames, rootNames, habs]

theorem isAbsolute_joinPaths : isAbsolute (joinPaths (dir :: ms)) = isAbsolute dir := by
  obtain ⟨path, habs, hlist, hjoin⟩ := exists_joinPaths hms dir
  have hlist' : tidyList path ≠ [] := by
    rw [hlist]
    simp [hne]
  rw [hjoin hne, isAbsolute_tidy hlist', habs]

/-- Joined paths are tidy. -/
theorem tidyList_joinPaths : tidyList (joinPaths (dir :: ms)) = tidyList dir ++ ms := by
  obtain ⟨path, habs, hlist, -⟩ := exists_joinPaths hms dir
  have htidied : Tidied (isAbsolute dir) (tidyList dir ++ ms).reverse := by
    rw [← habs, ← hlist]
    exact tidied_tidyList path
  have hroot : tidyNames (isAbsolute dir) [] (rootNames dir ++ (tidyList dir ++ ms)) =
      tidyNames (isAbsolute dir) [] (tidyList dir ++ ms) := by
    rw [tidyNames_append, rootNames]
    split <;> rfl
  rw [tidyList, isAbsolute_joinPaths hms hne, names_joinPaths hms hne, hroot]
  have hsame := htidied.tidyNames_reverse
  rw [List.reverse_reverse] at hsame
  rw [hsame, List.reverse_reverse]

end Join

end Midend.Files
