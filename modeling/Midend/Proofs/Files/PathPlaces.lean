import Mathlib.Data.List.Nodup
import Mathlib.Data.List.Perm.Subperm
import Midend.Files.Tree
import Midend.Proofs.Files.PathNames
import Midend.Proofs.Source.Spelling

/-!
# Where paths lead

A path leads to the same place in all trees in which it leads anywhere: a tree decides whether there is a
way, and not where it goes.  So what an operation on files needs and what it does can be told by the
places on the way of a path and the place at its end.

## Main definitions

* `follow`, `way`: where a name leads, and the places on the way of some names.
* `placeOf`, `wayOf`: the place that a path leads to, and those on its way.

## Main results

* `FileTree.resolve_eq_ok_iff`: when a path leads anywhere in a tree.
* `FileTree.read_congr`: reading depends on the places on the way only.
* `FileTree.write_eq_ok`, `FileTree.rename_eq_ok`, `FileTree.onlyMakes_makeDirs`: what the operations
  change.
* `FileTree.stat?_freshPath`: a fresh path leads nowhere.
-/

namespace Midend.Files

/-! ### Ways -/

/-- Where a name leads, if it leads anywhere. -/
def follow (p : Place) (n : String) : Place :=
  if n = "" ∨ n = "." then p else if n = ".." then FileTree.parent p else p.push n

/-- The places on the way of some names, with the first and the last one. -/
def way (p : Place) : List String → List Place
  | [] => [p]
  | n :: ns => p :: way (follow p n) ns

/-- The place that a path leads to. -/
def placeOf (path : String) : Place := (names path).foldl follow (FileTree.start path)

/-- The places on the way of a path. -/
def wayOf (path : String) : List Place := way (FileTree.start path) (names path)

theorem follow_normal {n : String} (h : Normal n) (p : Place) : follow p n = p.push n := by
  rw [follow, if_neg (not_or.mpr ⟨h.ne_empty, h.ne_dot⟩), if_neg h.ne_dots]

theorem way_append_singleton (p : Place) (ns : List String) (n : String) :
    way p (ns ++ [n]) = way p ns ++ [follow (ns.foldl follow p) n] := by
  induction ns generalizing p with
  | nil => rfl
  | cons m ns ih =>
    rw [List.cons_append, way, ih]
    rfl

theorem foldl_mem_way (p : Place) (ns : List String) : ns.foldl follow p ∈ way p ns := by
  induction ns generalizing p with
  | nil => exact List.mem_singleton_self p
  | cons n ns ih => exact List.mem_cons_of_mem p (ih (follow p n))

theorem placeOf_mem_wayOf (path : String) : placeOf path ∈ wayOf path := foldl_mem_way _ _

theorem dropLast_way_append (p : Place) (ns : List String) :
    (way p ns).dropLast ++ [ns.foldl follow p] = way p ns := by
  induction ns generalizing p with
  | nil => rfl
  | cons n ns ih =>
    rw [way, List.dropLast_cons_of_ne_nil (List.ne_nil_of_mem (foldl_mem_way _ _)), List.cons_append,
      List.foldl_cons, ih]

/-- The last place on the way is the one that the path leads to. -/
theorem dropLast_wayOf_append (path : String) : (wayOf path).dropLast ++ [placeOf path] = wayOf path :=
  dropLast_way_append _ _

/-- The names that are empty lead nowhere else. -/
theorem mem_way_filter {p r : Place} {ns : List String} (h : r ∈ way p (ns.filter (· ≠ ""))) :
    r ∈ way p ns := by
  induction ns generalizing p with
  | nil => exact h
  | cons n ns ih =>
    by_cases hn : n = ""
    · subst hn
      rw [List.filter_cons_of_neg (by simp)] at h
      exact List.mem_cons_of_mem p (ih h)
    · rw [List.filter_cons_of_pos (by simpa using hn), way, List.mem_cons] at h
      rcases h with rfl | h
      · exact List.mem_cons_self
      · exact List.mem_cons_of_mem p (ih h)

theorem map_name_stepsFrom (text last : String) (ns : List String) :
    (stepsFrom text last ns).map Step.name = (last :: ns).filter (· ≠ "") := by
  induction ns generalizing text last with
  | nil =>
    rw [stepsFrom]
    split
    · next h => simp [h]
    · next h => simp [h]
  | cons n ns ih =>
    rw [stepsFrom]
    by_cases hn : n = ""
    · rw [if_pos hn, ih]
      simp [List.filter_cons, hn]
    · rw [if_neg hn]
      by_cases hlast : last = ""
      · rw [if_pos hlast, ih, hlast]
        rfl
      · rw [if_neg hlast, List.map_cons, ih, ← List.filter_cons_of_pos (by simpa using hlast)]

theorem map_name_steps (path : String) :
    (steps path).map Step.name = (names path).filter (· ≠ "") := by
  rw [steps]
  cases names path with
  | nil => rfl
  | cons n ns => exact map_name_stepsFrom n n ns

/-! ### Files in a directory -/

section Join

variable {dir n : String}

theorem start_joinPaths {m : String} {ms : List String} (hms : ∀ k ∈ m :: ms, Normal k) :
    FileTree.start (joinPaths (dir :: m :: ms)) = FileTree.start dir := by
  rw [FileTree.start, FileTree.start, isAbsolute_joinPaths hms (List.cons_ne_nil m ms)]

variable (hdir : ∃ d m, Normal m ∧ dir = joinPaths [d, m]) (hn : Normal n)

include hdir hn

/-- The names of a file in a directory that was put together. -/
theorem names_joinPaths_file : names (joinPaths [dir, n]) = names dir ++ [n] := by
  obtain ⟨d, m, hm, rfl⟩ := hdir
  have hroot : rootNames (joinPaths [d, m]) = rootNames d := by
    rw [rootNames, rootNames, isAbsolute_joinPaths (by simpa using hm) (List.cons_ne_nil m [])]
  rw [names_joinPaths (by simpa using hn) (List.cons_ne_nil n []), hroot,
    tidyList_joinPaths (by simpa using hm) (List.cons_ne_nil m []),
    names_joinPaths (by simpa using hm) (List.cons_ne_nil m []), List.append_assoc, List.append_assoc,
    List.append_assoc]

theorem placeOf_joinPaths_file : placeOf (joinPaths [dir, n]) = (placeOf dir).push n := by
  rw [placeOf, names_joinPaths_file hdir hn, start_joinPaths (by simpa using hn), List.foldl_append,
    List.foldl_cons, List.foldl_nil, follow_normal hn]
  rfl

end Join

theorem isGiven_push {p : Place} {n : String} (h : Normal n) :
    FileTree.isGiven (p.push n) = false := by
  rw [FileTree.isGiven, Bool.or_eq_false_iff]
  constructor
  · rw [beq_eq_false_iff_ne]
    intro heq
    have hback := congrArg Array.back? heq
    rw [Array.back?_push] at hback
    refine h.plain ?_
    rw [Option.some.inj hback]
    decide
  · rw [Array.all_push, Bool.and_eq_false_iff]
    right
    simpa using h.ne_dots

namespace FileTree

/-! ### What is at a place -/

theorem get?_set (t : FileTree) {p : Place} (hp : isGiven p = false) (n : Node) (q : Place) :
    (t.set p n).get? q = if q = p then some n else t.get? q := by
  split
  · next h =>
    rw [h]
    exact t.get?_set_self p n hp
  · next h => exact t.get?_set_of_ne n h

theorem get?_erase_of_ne (t : FileTree) {p q : Place} (h : q ≠ p) :
    (t.erase p).get? q = t.get? q := by
  rw [← t.get?_set_of_ne .directory h]
  have hq : (q == p) = false := by simpa using h
  simp only [get?, set, erase, List.lookup_cons, hq]

theorem get?_erase_self (t : FileTree) {p : Place} (h : isGiven p = false) :
    (t.erase p).get? p = none := by
  rw [get?, if_neg (by simp [h]), List.lookup_eq_none_iff]
  intro e he
  simpa [erase, bne_comm] using (List.mem_filter.mp he).2

/-- Nothing is left below a place that was cleared with all below. -/
theorem get?_eraseBelow_push (t : FileTree) (p : Place) {n : String} (hn : Normal n) :
    (t.eraseBelow p).get? (p.push n) = none := by
  rw [get?, if_neg (by simp [isGiven_push hn]), List.lookup_eq_none_iff]
  intro e he
  have hbelow : p.isPrefixOf (p.push n) = true := by
    rw [← Array.isPrefixOf_toList, List.isPrefixOf_iff_prefix, Array.toList_push]
    exact List.prefix_append _ _
  rw [bne_iff_ne]
  rintro heq
  have hkept := (List.mem_filter.mp he).2
  rw [← heq, hbelow] at hkept
  cases hkept

/-! ### Looking up paths -/

/-- The front part of a path is a path. -/
theorem pathFault?_of_append {path path' : String} (hne : path ≠ "")
    (h : pathFault? (path ++ path') = none) : pathFault? path = none := by
  unfold pathFault? at h ⊢
  rw [if_neg hne]
  split at h
  · simp at h
  · split at h
    · simp at h
    · next hbad =>
      split at h
      · simp at h
      · next hlong =>
        rw [String.utf8ByteSize_append] at hlong
        rw [String.toList_append, List.contains_iff_mem, List.mem_append, not_or] at hbad
        rw [if_neg (by rw [List.contains_iff_mem]; exact hbad.1), if_neg (by omega)]

theorem enter_eq_ok_iff {t : FileTree} {p q : Place} {n : String} :
    t.enter p n = .ok q ↔
      t.get? p = some .directory ∧ n.utf8ByteSize ≤ maxNameBytes ∧ q = follow p n := by
  have hok : ∀ {fits : Prop} {r : Place}, fits → ((Except.ok r : Except Cause Place) = .ok q ↔
      fits ∧ q = r) := fun {fits r} hfits =>
    ⟨fun h => ⟨hfits, (Except.ok.inj h).symm⟩, fun h => congrArg Except.ok h.2.symm⟩
  rw [enter]
  cases ht : t.get? p with
  | none => simp
  | some node =>
    cases node with
    | file b => simp
    | directory =>
      simp only [true_and, follow]
      by_cases hstay : n = "" ∨ n = "."
      · rw [if_pos (by simpa using hstay), if_pos hstay]
        exact hok (by rcases hstay with rfl | rfl <;> decide)
      · rw [if_neg (by simpa using hstay), if_neg hstay]
        by_cases hup : n = ".."
        · rw [if_pos hup, if_pos hup]
          exact hok (by subst hup; decide)
        · rw [if_neg hup, if_neg hup]
          by_cases hlong : maxNameBytes < n.utf8ByteSize
          · rw [if_pos hlong]
            simp [Nat.not_le.mpr hlong]
          · rw [if_neg hlong]
            exact hok (Nat.le_of_not_lt hlong)

theorem foldlM_enter_eq_ok_iff {t : FileTree} {p q : Place} {ns : List String} :
    ns.foldlM t.enter p = .ok q ↔ (∀ r ∈ (way p ns).dropLast, t.get? r = some .directory) ∧
      (∀ n ∈ ns, n.utf8ByteSize ≤ maxNameBytes) ∧ q = ns.foldl follow p := by
  induction ns generalizing p with
  | nil => simp [way, pure, Except.pure, eq_comm]
  | cons n ns ih =>
    have hway : (way p (n :: ns)).dropLast = p :: (way (follow p n) ns).dropLast := by
      rw [way, List.dropLast_cons_of_ne_nil (List.ne_nil_of_mem (foldl_mem_way _ _))]
    rw [List.foldlM_cons, hway, List.forall_mem_cons, List.forall_mem_cons, List.foldl_cons]
    cases henter : t.enter p n with
    | error c =>
      have hno : ¬ (t.get? p = some .directory ∧ n.utf8ByteSize ≤ maxNameBytes) := by
        intro h
        rw [enter_eq_ok_iff.mpr ⟨h.1, h.2, rfl⟩] at henter
        simp at henter
      constructor
      · intro h
        simp [bind, Except.bind] at h
      · intro h
        exact absurd ⟨h.1.1, h.2.1.1⟩ hno
    | ok r =>
      obtain ⟨hdir, hfits, rfl⟩ := enter_eq_ok_iff.mp henter
      show ns.foldlM t.enter (follow p n) = .ok q ↔ _
      rw [ih]
      simp [hdir, hfits]

variable {t t' : FileTree} {path : String} {b : ByteArray}

/-- A path leads to its place if the directories on the way are there. -/
theorem resolve_eq_ok_iff {q : Place} :
    t.resolve path = .ok q ↔ pathFault? path = none ∧
      (∀ r ∈ (wayOf path).dropLast, t.get? r = some .directory) ∧
      (∀ n ∈ names path, n.utf8ByteSize ≤ maxNameBytes) ∧ q = placeOf path := by
  rw [resolve, resolveNames]
  cases hfault : pathFault? path with
  | some c => simp
  | none =>
    rw [foldlM_enter_eq_ok_iff]
    simp [wayOf, placeOf]

theorem enter_congr {p : Place} (h : t'.get? p = t.get? p) (n : String) :
    t'.enter p n = t.enter p n := by
  rw [enter, enter, h]

theorem foldlM_enter_congr {p : Place} {ns : List String}
    (h : ∀ r ∈ way p ns, t'.get? r = t.get? r) : ns.foldlM t'.enter p = ns.foldlM t.enter p := by
  induction ns generalizing p with
  | nil => rfl
  | cons n ns ih =>
    rw [way, List.forall_mem_cons] at h
    rw [List.foldlM_cons, List.foldlM_cons, enter_congr h.1]
    cases henter : t.enter p n with
    | error c => rfl
    | ok r =>
      obtain ⟨-, -, rfl⟩ := enter_eq_ok_iff.mp henter
      exact ih h.2

/-- What a path reads depends on the places on its way only. -/
theorem read_congr
    (h : ∀ r ∈ wayOf path, t'.get? r = t.get? r) : t'.read path = t.read path := by
  have hresolve : t'.resolve path = t.resolve path := by
    rw [resolve, resolve, resolveNames, resolveNames, foldlM_enter_congr h]
  rw [read, read, hresolve]
  cases hp : t.resolve path with
  | error c => rfl
  | ok p =>
    obtain ⟨-, -, -, rfl⟩ := resolve_eq_ok_iff.mp hp
    simp only [h _ (placeOf_mem_wayOf path)]

theorem read_eq_ok_iff :
    t.read path = .ok b ↔ t.resolve path = .ok (placeOf path) ∧ t.get? (placeOf path) = some (.file b) := by
  rw [read]
  cases hp : t.resolve path with
  | error c => simp
  | ok p =>
    obtain ⟨-, -, -, rfl⟩ := resolve_eq_ok_iff.mp hp
    dsimp only
    cases hnode : t.get? (placeOf path) with
    | none => simp
    | some node => cases node <;> simp

/-- Reading can be evaluated. -/
theorem read_of_data
    (h : (t.read path).toOption.map ByteArray.data = some b.data) : t.read path = .ok b := by
  cases hread : t.read path with
  | error e => simp [hread, Except.toOption] at h
  | ok b' =>
    rw [hread] at h
    exact congrArg Except.ok (ByteArray.ext (Option.some.inj h))

/-! ### Changing files -/

/-- Writing puts the content at the place of the path, which is no directory. -/
theorem write_eq_ok (h : t.write path b = .ok t') :
    t.resolve path = .ok (placeOf path) ∧ t.get? (placeOf path) ≠ some .directory ∧
      t' = t.set (placeOf path) (.file b) := by
  rw [write] at h
  cases hslash : endsInSlash path with
  | true =>
    rw [hslash] at h
    split at h <;> simp at h
  | false =>
    have hnames : t.resolveNames path (names path) = t.resolve path := rfl
    rw [hslash, if_neg (by decide), hnames] at h
    cases hp : t.resolve path with
    | error c => simp [hp] at h
    | ok p =>
      obtain ⟨-, -, -, rfl⟩ := resolve_eq_ok_iff.mp hp
      simp only [hp, Bool.false_or, decide_eq_true_eq] at h
      split at h
      · simp at h
      · next hdir => exact ⟨rfl, hdir, (Except.ok.inj h).symm⟩

/-- What was written is read. -/
theorem read_of_write (h : t.write path b = .ok t') :
    t'.read path = .ok b := by
  obtain ⟨hresolve, hnodir, rfl⟩ := write_eq_ok h
  have hgiven : isGiven (placeOf path) = false := by
    rw [Bool.eq_false_iff]
    intro hgiven
    exact hnodir (by rw [get?, if_pos hgiven])
  obtain ⟨hfault, hdirs, hfits, -⟩ := resolve_eq_ok_iff.mp hresolve
  refine read_eq_ok_iff.mpr ⟨resolve_eq_ok_iff.mpr ⟨hfault, fun r hr => ?_, hfits, rfl⟩,
    t.get?_set_self _ _ hgiven⟩
  have hne : r ≠ placeOf path := by
    rintro rfl
    exact hnodir (hdirs _ hr)
  rw [t.get?_set_of_ne _ hne]
  exact hdirs r hr

/-- Moving clears the place of the one path and puts its file at that of the other, which is no
directory. -/
theorem rename_eq_ok {source target : String} (h : t.rename source target = .ok t') :
    ∃ b, t.read source = .ok b ∧ t.resolve target = .ok (placeOf target) ∧
      t.get? (placeOf target) ≠ some .directory ∧
      t' = (t.erase (placeOf source)).set (placeOf target) (.file b) := by
  rw [rename] at h
  cases hread : t.read source with
  | error e => simp [hread, bind, Except.bind] at h
  | ok b =>
    obtain ⟨hsource, -⟩ := read_eq_ok_iff.mp hread
    rw [hread] at h
    simp only [bind, Except.bind, hsource] at h
    cases htarget : t.resolve target with
    | error c => simp [htarget] at h
    | ok q =>
      obtain ⟨-, -, -, rfl⟩ := resolve_eq_ok_iff.mp htarget
      rw [htarget] at h
      dsimp only at h
      split at h
      · simp at h
      · next hdir => exact ⟨b, rfl, rfl, hdir, (Except.ok.inj h).symm⟩

/-- A file that can be read is removed by clearing its place. -/
theorem remove_of_read (h : t.read path = .ok b) :
    t.remove path = t.erase (placeOf path) := by
  obtain ⟨hresolve, hfile⟩ := read_eq_ok_iff.mp h
  rw [remove, hresolve]
  dsimp only
  rw [hfile, if_neg (by simp)]

/-- Between two trees only directories were made, at some of the given places. -/
def OnlyMakes (places : List Place) (t t' : FileTree) : Prop :=
  ∀ r, t'.get? r = t.get? r ∨ t.get? r = none ∧ t'.get? r = some .directory ∧ r ∈ places

theorem OnlyMakes.refl {places : List Place} (t : FileTree) : OnlyMakes places t t := fun _ => .inl rfl

theorem OnlyMakes.mono {places places' : List Place} (h : OnlyMakes places t t')
    (hsub : ∀ r ∈ places, r ∈ places') : OnlyMakes places' t t' := by
  intro r
  rcases h r with hsame | ⟨hnone, hdir, hr⟩
  · exact .inl hsame
  · exact .inr ⟨hnone, hdir, hsub r hr⟩

/-- The files are the same. -/
theorem OnlyMakes.file_iff {places : List Place} (h : OnlyMakes places t t') (p : Place)
    (b : ByteArray) : t'.get? p = some (.file b) ↔ t.get? p = some (.file b) := by
  rcases h p with hsame | ⟨hnone, hdir, -⟩
  · rw [hsame]
  · rw [hnone, hdir]
    simp

/-- A directory may be made in front. -/
theorem OnlyMakes.cons_set {places : List Place} {q : Place} (hq : t.get? q = none)
    (h : OnlyMakes places (t.set q .directory) t') : OnlyMakes (q :: places) t t' := by
  have hgiven : isGiven q = false := by
    rw [get?] at hq
    split at hq
    · simp at hq
    · next hgiven => simpa using hgiven
  intro r
  have hset := t.get?_set hgiven .directory r
  by_cases hr : r = q
  · subst hr
    rw [if_pos rfl] at hset
    rcases h r with hsame | ⟨hnone, -, -⟩
    · exact .inr ⟨hq, hsame.trans hset, List.mem_cons_self⟩
    · rw [hset] at hnone
      simp at hnone
  · rw [if_neg hr] at hset
    rw [← hset]
    rcases h r with hsame | ⟨hnone, hdir, hmem⟩
    · exact .inl hsame
    · exact .inr ⟨hnone, hdir, List.mem_cons_of_mem q hmem⟩

theorem mem_way_self (p : Place) (ns : List String) : p ∈ way p ns := by
  cases ns <;> exact List.mem_cons_self

theorem onlyMakes_makeSteps (t : FileTree) (p : Place) (made : Bool) (ss : List Step) :
    OnlyMakes (way p (ss.map Step.name)) t (t.makeSteps p made ss).2 := by
  induction ss generalizing t p made with
  | nil => exact .refl t
  | cons s ss ih =>
    rw [List.map_cons, way, makeSteps]
    cases pathFault? s.path with
    | some c => exact .refl t
    | none =>
      cases henter : t.enter p s.name with
      | error c => exact .refl t
      | ok q =>
        obtain ⟨-, -, rfl⟩ := enter_eq_ok_iff.mp henter
        dsimp only
        cases hnode : t.get? (follow p s.name) with
        | none =>
          refine (OnlyMakes.cons_set hnode (ih _ _ true)).mono fun r hr => ?_
          rcases List.mem_cons.mp hr with rfl | hr
          · exact List.mem_cons_of_mem p (mem_way_self _ _)
          · exact List.mem_cons_of_mem p hr
        | some node =>
          cases node with
          | file b => exact .refl t
          | directory => exact (ih t _ made).mono fun r hr => List.mem_cons_of_mem p hr

/-- Making a directory makes only directories on the way, also if it fails. -/
theorem onlyMakes_makeDirs (t : FileTree) (path : String) :
    OnlyMakes (wayOf path) t (t.makeDirs path).2 := by
  rw [makeDirs]
  split
  · exact .refl t
  · refine (onlyMakes_makeSteps t (start path) false (steps path)).mono fun r hr => ?_
    rw [map_name_steps] at hr
    exact mem_way_filter hr

/-! ### Fresh paths -/

theorem get?_of_stat?_isSome (h : (t.stat? path).isNone = false) :
    ∃ node, t.get? (placeOf path) = some node := by
  rw [stat?] at h
  cases hp : t.resolve path with
  | error c => simp [hp] at h
  | ok p =>
    obtain ⟨-, -, -, rfl⟩ := resolve_eq_ok_iff.mp hp
    simp only [hp] at h
    exact Option.isSome_iff_exists.mp (by simpa using h)

theorem mem_entries_of_get? {p : Place} {node : Node} (hp : isGiven p = false)
    (h : t.get? p = some node) : p ∈ t.entries.map Prod.fst := by
  rw [get?, if_neg (by simp [hp])] at h
  obtain ⟨_, _, hentries, -⟩ := List.lookup_eq_some_iff.mp h
  rw [hentries]
  simp

/-- The name of a temporary file. -/
def tempName (k : Nat) : String := s!"tmp-{k}"

theorem toList_tempName (k : Nat) :
    (tempName k).toList = 't' :: 'm' :: 'p' :: '-' :: k.repr.toList := by
  have htext : tempName k = "tmp-" ++ k.repr := rfl
  rw [htext, String.toList_append]
  rfl

theorem tempName_injective {j k : Nat} (h : tempName j = tempName k) : j = k := by
  have hlist := congrArg String.toList h
  rw [toList_tempName, toList_tempName] at hlist
  have hrepr : j.repr = k.repr := by
    rw [← String.toList_inj]
    simpa using hlist
  rw [← Source.magnitude_repr j, ← Source.magnitude_repr k, hrepr]

theorem normal_tempName (k : Nat) : Normal (tempName k) := by
  have hdigits : '/' ∉ k.repr.toList := by
    rw [Nat.toList_repr]
    intro hslash
    exact absurd (Nat.isDigit_of_mem_toDigits (by decide) (by decide) hslash) (by decide)
  have hne : ∀ s : String, s.toList.head? ≠ some 't' → tempName k ≠ s := by
    rintro s hs rfl
    rw [toList_tempName] at hs
    exact hs rfl
  refine ⟨?_, hne "" (by decide), hne "." (by decide), hne ".." (by decide)⟩
  rw [Plain, toList_tempName]
  simpa using hdigits

theorem exists_freshPath (t : FileTree) (dir : String) :
    ∃ k, t.freshPath dir = joinPaths [dir, tempName k] := ⟨_, rfl⟩

/-- A fresh path leads nowhere: there are more candidates than places. -/
theorem stat?_freshPath {dir : String} (hdir : ∃ d m, Normal m ∧ dir = joinPaths [d, m]) :
    t.stat? (t.freshPath dir) = none := by
  obtain ⟨k, hk⟩ : ∃ k, (List.range (t.entries.length + 1)).find?
      (fun k => (t.stat? (joinPaths [dir, tempName k])).isNone) = some k := by
    by_contra hnone
    have hall : ∀ k ∈ List.range (t.entries.length + 1),
        (placeOf dir).push (tempName k) ∈ t.entries.map Prod.fst := by
      intro k hk
      have hstat := List.find?_eq_none.mp (Option.eq_none_iff_forall_ne_some.mpr fun j hj =>
        hnone ⟨j, hj⟩) k hk
      obtain ⟨node, hnode⟩ := get?_of_stat?_isSome (Bool.eq_false_iff.mpr hstat)
      rw [placeOf_joinPaths_file hdir (normal_tempName k)] at hnode
      exact mem_entries_of_get? (isGiven_push (normal_tempName k)) hnode
    have hnodup : ((List.range (t.entries.length + 1)).map fun k =>
        (placeOf dir).push (tempName k)).Nodup := by
      refine List.Nodup.map (fun j k hjk => ?_) List.nodup_range
      exact tempName_injective (Array.push_inj_right.mp hjk)
    have hsub := (hnodup.subperm fun p hp => by
      obtain ⟨k, hk, rfl⟩ := List.mem_map.mp hp
      exact hall k hk).length_le
    rw [List.length_map, List.length_map, List.length_range] at hsub
    omega
  have hfresh : t.freshPath dir = joinPaths [dir, tempName k] := by
    show joinPaths [dir, tempName (((List.range (t.entries.length + 1)).find?
      fun k => (t.stat? (joinPaths [dir, tempName k])).isNone).getD 0)] = _
    rw [hk]
    rfl
  rw [hfresh]
  simpa using List.find?_some hk

end FileTree

end Midend.Files
