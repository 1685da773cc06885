import Midend.Cache.Store
import Midend.Proofs.Cache.EntryCodec
import Midend.Proofs.Files.PathPlaces

/-!
# The cache as a map

As long as nobody else changes its files, a cache is a map from keys to entries: what was stored under a
key last is found there, and storing under one key changes nothing under another.  Storing goes through a
temporary file, of which nothing is left.

Others notice of the cache only its entries and its directories.

## Main definitions

* `place`, `entryPlace`: where a cache has its entries.
* `Holds`: the files of a cache hold a map of entries.
* `Alters`: what operations on a cache may change.
* `Clear`: a path does not lead through what they change.

## Main results

* `entryPlace_injective`: every key has a place of its own.
* `putOn_eq_ok`, `putOn_eq_error`: what storing an entry does to the files.
* `Holds.get`, `Holds.putOn`, `Holds.dropAll`: the cache reads, stores and removes entries as a map does.
* `Alters.read`: a clear path reads the same before and after.
-/

namespace Midend.Cache

open Files (FileTree Normal Plain joinPaths names placeOf wayOf)
open Files.FileTree (OnlyMakes tempName)

/-! ### Keys as names -/

theorem hexDigit_injective {m n : Nat} (hm : m < 16) (hn : n < 16)
    (h : Text.hexDigit m = Text.hexDigit n) : m = n := by
  have hall : ∀ a < 16, ∀ b < 16, Text.hexDigit a = Text.hexDigit b → a = b := by decide
  exact hall m hm n hn h

theorem hexDigits_two (n : Nat) :
    Text.hexDigits 2 n = [Text.hexDigit (n / 16 % 16), Text.hexDigit (n % 16)] := by
  show [Text.hexDigit (n / 16 % 16), Text.hexDigit (n / 1 % 16)] = _
  rw [Nat.div_one]

theorem hexDigits_two_injective {b b' : UInt8}
    (h : Text.hexDigits 2 b.toNat = Text.hexDigits 2 b'.toNat) : b = b' := by
  rw [hexDigits_two, hexDigits_two] at h
  obtain ⟨hhigh, hlow⟩ := List.cons.inj h
  have hhigh := hexDigit_injective (Nat.mod_lt _ (by decide)) (Nat.mod_lt _ (by decide)) hhigh
  have hlow := hexDigit_injective (Nat.mod_lt _ (by decide)) (Nat.mod_lt _ (by decide))
    (List.cons.inj hlow).1
  have hb := b.toNat_lt
  have hb' := b'.toNat_lt
  rw [← UInt8.toNat_inj]
  omega

theorem flatMap_hexDigits_injective {l l' : List UInt8}
    (h : (l.flatMap fun b => Text.hexDigits 2 b.toNat) = l'.flatMap fun b => Text.hexDigits 2 b.toNat) :
    l = l' := by
  induction l generalizing l' with
  | nil =>
    cases l' with
    | nil => rfl
    | cons b' l' => simp [hexDigits_two] at h
  | cons b l ih =>
    cases l' with
    | nil => simp [hexDigits_two] at h
    | cons b' l' =>
      rw [List.flatMap_cons, List.flatMap_cons] at h
      obtain ⟨hb, hl⟩ := List.append_inj h (by rw [hexDigits_two, hexDigits_two]; rfl)
      rw [hexDigits_two_injective hb, ih hl]

/-- The name of the file of an entry. -/
def fileName (k : Key) : String := s!"{k.text}.mp"

theorem toList_fileName (k : Key) :
    (fileName k).toList = (k.bytes.flatMap fun b => Text.hexDigits 2 b.toNat) ++ ['.', 'm', 'p'] := by
  have htext : fileName k = k.text ++ ".mp" := rfl
  rw [htext, String.toList_append, Key.text, String.toList_ofList]
  rfl

theorem fileName_injective {j k : Key} (h : fileName j = fileName k) : j = k := by
  have hlist := congrArg String.toList h
  rw [toList_fileName, toList_fileName, List.append_left_inj] at hlist
  cases j
  cases k
  exact congrArg Key.mk (flatMap_hexDigits_injective hlist)

theorem hexDigit_of_mem {l : List UInt8} {c : Char}
    (h : c ∈ l.flatMap fun b => Text.hexDigits 2 b.toNat) : ∃ n < 16, c = Text.hexDigit n := by
  obtain ⟨b, -, hc⟩ := List.mem_flatMap.mp h
  rw [hexDigits_two] at hc
  rcases List.mem_cons.mp hc with rfl | hc
  · exact ⟨_, Nat.mod_lt _ (by decide), rfl⟩
  · obtain rfl := List.mem_singleton.mp hc
    exact ⟨_, Nat.mod_lt _ (by decide), rfl⟩

theorem normal_fileName (k : Key) : Normal (fileName k) := by
  have hlong : 3 ≤ (fileName k).toList.length := by
    rw [toList_fileName, List.length_append]
    exact Nat.le_add_left 3 _
  have hne : ∀ s : String, s.toList.length < 3 → fileName k ≠ s := by
    rintro s hs rfl
    omega
  refine ⟨?_, hne "" (by decide), hne "." (by decide), hne ".." (by decide)⟩
  rw [Plain, toList_fileName, List.mem_append, not_or]
  refine ⟨fun hslash => ?_, by decide⟩
  obtain ⟨n, hn, heq⟩ := hexDigit_of_mem hslash
  have hall : ∀ a < 16, '/' ≠ Text.hexDigit a := by decide
  exact hall n hn heq

/-- No temporary file has the name of an entry: a key is written without that letter. -/
theorem tempName_ne_fileName (j : Nat) (k : Key) : tempName j ≠ fileName k := by
  intro h
  have hlist := congrArg String.toList h
  rw [Files.FileTree.toList_tempName, toList_fileName] at hlist
  cases hdigits : k.bytes.flatMap fun b => Text.hexDigits 2 b.toNat with
  | nil => simp [hdigits] at hlist
  | cons c cs =>
    obtain ⟨n, hn, heq⟩ := hexDigit_of_mem (l := k.bytes) (c := c) (by rw [hdigits]; exact List.mem_cons_self)
    rw [hdigits] at hlist
    have hall : ∀ a < 16, 't' ≠ Text.hexDigit a := by decide
    exact hall n hn ((List.cons.inj hlist).1.trans heq)

variable {c : Cache}

/-! ### The places of a cache -/

theorem normal_results : Normal "results" := ⟨by decide, by decide, by decide, by decide⟩

theorem entriesDir_joined (c : Cache) : ∃ d m, Normal m ∧ c.entriesDir = joinPaths [d, m] :=
  ⟨c.dir, "results", normal_results, rfl⟩

/-- Where the directory of the entries is. -/
def place (c : Cache) : Files.Place := placeOf c.entriesDir

/-- Where an entry is. -/
def entryPlace (c : Cache) (k : Key) : Files.Place := c.place.push (fileName k)

/-- Is there an entry's place? -/
def IsEntry (c : Cache) (r : Files.Place) : Prop := ∃ k, r = c.entryPlace k

theorem entryPlace_injective {j k : Key} (h : c.entryPlace j = c.entryPlace k) : j = k :=
  fileName_injective (Array.push_inj_right.mp h)

theorem isGiven_entryPlace (c : Cache) (k : Key) : FileTree.isGiven (c.entryPlace k) = false :=
  Files.isGiven_push (normal_fileName k)

theorem names_entryPath (c : Cache) (k : Key) :
    names (c.entryPath k) = names c.entriesDir ++ [fileName k] := by
  have hms : ∀ m ∈ ["results", fileName k], Normal m := by
    simp [normal_results, normal_fileName]
  have hdir : ∀ m ∈ ["results"], Normal m := by simp [normal_results]
  show names (joinPaths (c.dir :: ["results", fileName k])) = names (joinPaths (c.dir :: ["results"])) ++ _
  rw [Files.names_joinPaths hms (List.cons_ne_nil _ _), Files.names_joinPaths hdir (List.cons_ne_nil _ _)]
  simp

theorem entryPath_eq (c : Cache) (k : Key) : c.entryPath k = c.entriesDir ++ "/" ++ fileName k := by
  apply Files.names_injective
  rw [names_entryPath, Files.names_append_slash, Files.names_of_plain (normal_fileName k).plain]

theorem entriesDir_ne_empty (c : Cache) : c.entriesDir ≠ "" := by
  intro hempty
  have hmem : "results" ∈ names c.entriesDir := by
    rw [entriesDir, Files.names_joinPaths (by simp [normal_results]) (List.cons_ne_nil _ _)]
    simp
  rw [hempty] at hmem
  exact absurd hmem (by decide)

theorem start_entryPath (c : Cache) (k : Key) :
    FileTree.start (c.entryPath k) = FileTree.start c.entriesDir := by
  have hms : ∀ m ∈ ["results", fileName k], Normal m := by
    simp [normal_results, normal_fileName]
  have hdir : ∀ m ∈ ["results"], Normal m := by simp [normal_results]
  exact (Files.start_joinPaths hms).trans (Files.start_joinPaths hdir).symm

theorem placeOf_entryPath (c : Cache) (k : Key) : placeOf (c.entryPath k) = c.entryPlace k := by
  rw [placeOf, names_entryPath, start_entryPath, List.foldl_append, List.foldl_cons, List.foldl_nil,
    Files.follow_normal (normal_fileName k)]
  rfl

theorem wayOf_entryPath (c : Cache) (k : Key) :
    wayOf (c.entryPath k) = wayOf c.entriesDir ++ [c.entryPlace k] := by
  rw [wayOf, names_entryPath, start_entryPath, Files.way_append_singleton,
    Files.follow_normal (normal_fileName k)]
  rfl

theorem resolve_entryPath_eq_ok {t : FileTree} {k : Key} {q : Files.Place}
    (h : t.resolve (c.entryPath k) = .ok q) :
    ∀ r ∈ wayOf c.entriesDir, t.get? r = some .directory := by
  have hdirs := (Files.FileTree.resolve_eq_ok_iff.mp h).2.1
  rw [wayOf_entryPath, List.dropLast_concat] at hdirs
  exact hdirs

/-- If an entry is in its place, the directory of the entries is there. -/
theorem resolve_entriesDir {t : FileTree} {k : Key} {q : Files.Place}
    (h : t.resolve (c.entryPath k) = .ok q) : t.resolve c.entriesDir = .ok c.place := by
  obtain ⟨hfault, -, hfits, -⟩ := Files.FileTree.resolve_eq_ok_iff.mp h
  rw [entryPath_eq, String.append_assoc] at hfault
  rw [names_entryPath] at hfits
  refine Files.FileTree.resolve_eq_ok_iff.mpr
    ⟨Files.FileTree.pathFault?_of_append c.entriesDir_ne_empty hfault, fun r hr => ?_, fun n hn => ?_, rfl⟩
  · exact resolve_entryPath_eq_ok h r (List.dropLast_subset _ hr)
  · exact hfits n (List.mem_append_left _ hn)

/-! ### What a cache changes -/

/-- The places on the way to the cache and to its entries. -/
def ways (c : Cache) : List Files.Place := wayOf c.dir ++ wayOf c.entriesDir

/-- Between two trees, only entries of the cache were changed and directories made for it. -/
def Alters (c : Cache) (t t' : FileTree) : Prop :=
  ∀ r, t'.get? r = t.get? r ∨ c.IsEntry r ∧ t.get? r ≠ some .directory ∨
    t.get? r = none ∧ t'.get? r = some .directory ∧ r ∈ c.ways

theorem Alters.trans {t t' t'' : FileTree} (h : c.Alters t t') (h' : c.Alters t' t'') :
    c.Alters t t'' := by
  intro r
  rcases h r with hsame | hentry | ⟨hnone, hdir, hway⟩
  · rw [← hsame]
    exact h' r
  · exact .inr (.inl hentry)
  · rcases h' r with hsame | ⟨-, hnodir⟩ | ⟨hnone', -, -⟩
    · exact .inr (.inr ⟨hnone, hsame.trans hdir, hway⟩)
    · exact absurd hdir hnodir
    · rw [hdir] at hnone'
      simp at hnone'

theorem alters_of_onlyMakes {places : List Files.Place} {t t' : FileTree} (h : OnlyMakes places t t')
    (hsub : ∀ r ∈ places, r ∈ c.ways) : c.Alters t t' := by
  intro r
  rcases h r with hsame | ⟨hnone, hdir, hr⟩
  · exact .inl hsame
  · exact .inr (.inr ⟨hnone, hdir, hsub r hr⟩)

/-- No place on the way of a path is one where the cache has an entry or may put one, or one of its
directories that is yet to be made. -/
def Clear (c : Cache) (t : FileTree) (path : String) : Prop :=
  ∀ r ∈ wayOf path, (c.IsEntry r → t.get? r = some .directory) ∧ (r ∈ c.ways → t.get? r ≠ none)

/-- A clear path reads the same whatever the cache does. -/
theorem Alters.read {t t' : FileTree} {path : String} (h : c.Alters t t') (hclear : c.Clear t path) :
    t'.read path = t.read path := by
  refine Files.FileTree.read_congr fun r hr => ?_
  rcases h r with hsame | ⟨hentry, hnodir⟩ | ⟨hnone, -, hway⟩
  · exact hsame
  · exact absurd ((hclear r hr).1 hentry) hnodir
  · exact absurd hnone ((hclear r hr).2 hway)

/-! ### Storing -/

/-- The entry as it is stored. -/
def stamped (e : Entry) : Entry := { e with schema := schemaVersion }

theorem decode?_stamped {e : Entry} (h : e.Fits) : Entry.decode? (stamped e).encode = some (stamped e) :=
  Entry.decode?_encode ⟨h.name, h.output, h.trace⟩

/-- The content of an entry's file. -/
def content (e : Entry) : ByteArray := ⟨e.encode.toArray⟩

/-- If an entry gets to its place, it was written to the temporary file, and that was moved. -/
theorem replaceEntry_eq_ok {refuses : PutStep → Bool} {t t' : FileTree} {temp path : String} {e : Entry}
    (h : replaceEntry refuses t temp path e = .ok t') :
    ∃ t₁, t.write temp (content e) = .ok t₁ ∧ t₁.rename temp path = .ok t' := by
  have hattempt : ∀ step op path, attempt refuses step op path = .ok () ∨
      ∃ err, attempt refuses step op path = .error err := by
    intro step op path
    rw [attempt]
    split
    · exact .inr ⟨_, rfl⟩
    · exact .inl rfl
  rw [replaceEntry] at h
  rcases hattempt .write "write" temp with hwrite | ⟨err, hwrite⟩
  · rw [hwrite] at h
    cases hwritten : t.write temp (content e) with
    | error err =>
      rw [content] at hwritten
      simp [hwritten, bind, Except.bind] at h
    | ok t₁ =>
      rw [content] at hwritten
      simp only [hwritten, bind, Except.bind] at h
      rcases hattempt .close "close" temp with hclose | ⟨err, hclose⟩
      · rcases hattempt .rename "rename" (temp ++ " " ++ path) with hrename | ⟨err, hrename⟩
        · simp only [hclose, hrename] at h
          exact ⟨t₁, rfl, h⟩
        · simp [hclose, hrename] at h
      · simp [hclose] at h
  · simp [hwrite, bind, Except.bind] at h

section Put

variable {refuses : PutStep → Bool} {t t' : FileTree} {k : Key} {e : Entry} {err : CacheError}

/-- The ways that storing an entry can go: no temporary file is made; one is made, but does not get to
the place of the entry and is removed; or it gets there. -/
theorem putOn_cases (refuses : PutStep → Bool) (c : Cache) (t : FileTree) (k : Key) (e : Entry) :
    (∃ err t₁, OnlyMakes (wayOf c.entriesDir) t t₁ ∧ c.putOn refuses t k e = (.error (.file err), t₁)) ∨
    ∃ t₁ t₂, OnlyMakes (wayOf c.entriesDir) t t₁ ∧
      t₁.write (t₁.freshPath c.entriesDir) ⟨#[]⟩ = .ok t₂ ∧
      ((∃ err, c.putOn refuses t k e = (.error (.file err), t₂.remove (t₁.freshPath c.entriesDir))) ∨
        ∃ t₃ t₄, t₂.write (t₁.freshPath c.entriesDir) (content (stamped e)) = .ok t₃ ∧
          t₃.rename (t₁.freshPath c.entriesDir) (c.entryPath k) = .ok t₄ ∧
          c.putOn refuses t k e = (.ok (), t₄)) := by
  rw [putOn]
  dsimp only
  split
  · next err t₁ hmade =>
    refine .inl ⟨err, t₁, ?_, rfl⟩
    split at hmade
    · obtain rfl := (Prod.mk.inj hmade).2
      exact .refl t
    · have hmakes := t.onlyMakes_makeDirs c.entriesDir
      rw [hmade] at hmakes
      exact hmakes
  · next t₁ hmade =>
    have hmakes : OnlyMakes (wayOf c.entriesDir) t t₁ := by
      split at hmade
      · simp at hmade
      · have hmakes := t.onlyMakes_makeDirs c.entriesDir
        rw [hmade] at hmakes
        exact hmakes
    split
    · next err _ => exact .inl ⟨err, t₁, hmakes, rfl⟩
    · next t₂ hcreated =>
      have hcreate : t₁.write (t₁.freshPath c.entriesDir) ⟨#[]⟩ = .ok t₂ := by
        rw [attempt] at hcreated
        split at hcreated
        · simp [bind, Except.bind] at hcreated
        · exact hcreated
      refine .inr ⟨t₁, t₂, hmakes, hcreate, ?_⟩
      split
      · next t₄ hreplaced =>
        obtain ⟨t₃, hwrite, hrename⟩ := replaceEntry_eq_ok hreplaced
        exact .inr ⟨t₃, t₄, hwrite, hrename, rfl⟩
      · next err _ => exact .inl ⟨err, rfl⟩

/-- A temporary file has a place where nothing was. -/
theorem get?_freshPath {t₁ t₂ : FileTree} {b : ByteArray}
    (h : t₁.write (t₁.freshPath c.entriesDir) b = .ok t₂) :
    ∃ j, placeOf (t₁.freshPath c.entriesDir) = c.place.push (tempName j) ∧
      t₁.get? (c.place.push (tempName j)) = none := by
  obtain ⟨j, htemp⟩ := t₁.exists_freshPath c.entriesDir
  have hplace : placeOf (t₁.freshPath c.entriesDir) = c.place.push (tempName j) := by
    rw [htemp]
    exact Files.placeOf_joinPaths_file c.entriesDir_joined (Files.FileTree.normal_tempName j)
  have hnothing := Files.FileTree.stat?_freshPath (t := t₁) c.entriesDir_joined
  obtain ⟨hresolve, -, -⟩ := Files.FileTree.write_eq_ok h
  rw [Files.FileTree.stat?, hresolve, hplace] at hnothing
  exact ⟨j, hplace, hnothing⟩

/-- What storing an entry does: the directory is made as far as it is missing, and the entry is put into
it.  The temporary file had a place where nothing was, and where nothing is left. -/
theorem putOn_eq_ok (h : c.putOn refuses t k e = (.ok (), t')) :
    ∃ t₁, OnlyMakes (wayOf c.entriesDir) t t₁ ∧ t₁.resolve (c.entryPath k) = .ok (c.entryPlace k) ∧
      t₁.get? (c.entryPlace k) ≠ some .directory ∧
      ∀ r, t'.get? r = if r = c.entryPlace k then some (.file (content (stamped e))) else t₁.get? r := by
  obtain ⟨err, _, -, herr⟩ | ⟨t₁, t₂, hmakes, hcreate, ⟨err, herr⟩ | ⟨t₃, t₄, hwrite, hrename, hok⟩⟩ :=
    putOn_cases refuses c t k e
  · simp [herr] at h
  · simp [herr] at h
  rw [hok] at h
  obtain rfl := (Prod.mk.inj h).2
  obtain ⟨j, htempPlace, hfree⟩ := get?_freshPath hcreate
  obtain ⟨-, -, rfl⟩ := Files.FileTree.write_eq_ok hcreate
  obtain ⟨-, -, rfl⟩ := Files.FileTree.write_eq_ok hwrite
  obtain ⟨b, hread, htarget, hnodir, rfl⟩ := Files.FileTree.rename_eq_ok hrename
  obtain ⟨-, hfile⟩ := Files.FileTree.read_eq_ok_iff.mp hread
  rw [placeOf_entryPath] at htarget hnodir ⊢
  rw [htempPlace] at hfile htarget hnodir ⊢
  have hgiven := Files.isGiven_push (p := c.place) (Files.FileTree.normal_tempName j)
  have hne : c.place.push (tempName j) ≠ c.entryPlace k := fun heq =>
    tempName_ne_fileName j k (Array.push_inj_right.mp heq)
  rw [Files.FileTree.get?_set_self _ _ _ hgiven] at hfile
  obtain rfl : content (stamped e) = b := Files.Node.file.inj (Option.some.inj hfile)
  rw [Files.FileTree.get?_set_of_ne _ _ hne.symm, Files.FileTree.get?_set_of_ne _ _ hne.symm] at hnodir
  refine ⟨t₁, hmakes, ?_, hnodir, fun r => ?_⟩
  · obtain ⟨hfault, hdirs, hfits, -⟩ := Files.FileTree.resolve_eq_ok_iff.mp htarget
    refine Files.FileTree.resolve_eq_ok_iff.mpr
      ⟨hfault, fun r hr => ?_, hfits, (placeOf_entryPath c k).symm⟩
    -- The temporary file is no directory on the way.
    have hdir := hdirs r hr
    by_cases hr' : r = c.place.push (tempName j)
    · rw [hr', Files.FileTree.get?_set_self _ _ _ hgiven] at hdir
      simp at hdir
    · rw [Files.FileTree.get?_set_of_ne _ _ hr', Files.FileTree.get?_set_of_ne _ _ hr'] at hdir
      exact hdir
  · rw [Files.FileTree.get?_set _ (c.isGiven_entryPlace k)]
    split
    · rfl
    · by_cases hr : r = c.place.push (tempName j)
      · rw [hr, Files.FileTree.get?_erase_self _ hgiven, hfree]
      · rw [Files.FileTree.get?_erase_of_ne _ hr, Files.FileTree.get?_set_of_ne _ _ hr,
          Files.FileTree.get?_set_of_ne _ _ hr]

/-- If an entry cannot be stored, an operation on files failed.  All that it leaves behind are directories
that were made; the temporary file is removed. -/
theorem putOn_eq_error (h : c.putOn refuses t k e = (.error err, t')) :
    (∃ f, err = .file f) ∧ OnlyMakes (wayOf c.entriesDir) t t' := by
  obtain ⟨f, t₁, hmakes, herr⟩ | ⟨t₁, t₂, hmakes, hcreate, ⟨f, herr⟩ | ⟨_, _, -, -, hok⟩⟩ :=
    putOn_cases refuses c t k e
  · rw [herr] at h
    obtain ⟨hf, rfl⟩ := Prod.mk.inj h
    exact ⟨⟨f, (Except.error.inj hf).symm⟩, hmakes⟩
  · rw [herr] at h
    obtain ⟨hf, rfl⟩ := Prod.mk.inj h
    refine ⟨⟨f, (Except.error.inj hf).symm⟩, ?_⟩
    obtain ⟨j, htempPlace, hfree⟩ := get?_freshPath hcreate
    have hgiven := Files.isGiven_push (p := c.place) (Files.FileTree.normal_tempName j)
    rw [Files.FileTree.remove_of_read (Files.FileTree.read_of_write hcreate)]
    obtain ⟨-, -, rfl⟩ := Files.FileTree.write_eq_ok hcreate
    rw [htempPlace]
    intro r
    have hsame : ((t₁.set (c.place.push (tempName j)) (.file ⟨#[]⟩)).erase
        (c.place.push (tempName j))).get? r = t₁.get? r := by
      by_cases hr : r = c.place.push (tempName j)
      · rw [hr, Files.FileTree.get?_erase_self _ hgiven, hfree]
      · rw [Files.FileTree.get?_erase_of_ne _ hr, Files.FileTree.get?_set_of_ne _ _ hr]
    rw [hsame]
    exact hmakes r
  · simp [hok] at h

theorem alters_putOn (h : c.putOn refuses t k e = (.ok (), t')) : c.Alters t t' := by
  obtain ⟨t₁, hmakes, -, hnodir, hput⟩ := putOn_eq_ok h
  intro r
  rw [hput]
  by_cases hr : r = c.entryPlace k
  · subst hr
    refine .inr (.inl ⟨⟨k, rfl⟩, fun hdir => hnodir ?_⟩)
    rcases hmakes (c.entryPlace k) with hsame | ⟨-, hmade, -⟩
    · exact hsame.trans hdir
    · exact hmade
  · rw [if_neg hr]
    exact alters_of_onlyMakes hmakes (fun p hp => List.mem_append_right _ hp) r

end Put

/-- Opening a cache makes its directory. -/
theorem onlyMakes_openIn {env : Environment} {t : FileTree} {dir : String}
    (h : (openIn env t dir).1 = .ok c) : OnlyMakes (wayOf c.dir) t (openIn env t dir).2 := by
  rw [openIn] at h ⊢
  split at h
  · simp at h
  · next d _ =>
    have hmakes := t.onlyMakes_makeDirs d
    cases hmake : t.makeDirs d with
    | mk made t' =>
      rw [hmake] at h hmakes
      cases made with
      | error e => simp at h
      | ok =>
        obtain rfl := Except.ok.inj h
        exact hmakes

/-! ### The cache as a map -/

/-- The files of a cache hold a map of entries. -/
structure Holds (c : Cache) (t : FileTree) (kept : Key → Option Entry) : Prop where
  /-- The entries of the map are there. -/
  stored {k : Key} {e : Entry} : kept k = some e → t.get? (c.entryPlace k) = some (.file (content e))
  /-- There are no others. -/
  free {k : Key} {b : ByteArray} : kept k = none → t.get? (c.entryPlace k) ≠ some (.file b)
  /-- The entries are in a directory. -/
  reached {k : Key} {e : Entry} : kept k = some e → t.resolve (c.entryPath k) = .ok (c.entryPlace k)
  /-- The entries can be read, and are of the current version. -/
  sound {k : Key} {e : Entry} :
    kept k = some e → Entry.decode? e.encode = some e ∧ e.schema = schemaVersion

/-- An empty cache holds no entries. -/
def Empty (c : Cache) (t : FileTree) : Prop := ∀ k b, t.get? (c.entryPlace k) ≠ some (.file b)

theorem Empty.holds {t : FileTree} (h : c.Empty t) : c.Holds t fun _ => none where
  stored hk := by simp at hk
  free {k b} _ := h k b
  reached hk := by simp at hk
  sound hk := by simp at hk

/-- As long as the cache is empty, the paths of all files are clear. -/
theorem Empty.clear {t : FileTree} {path : String} {b : ByteArray} (h : c.Empty t)
    (hread : t.read path = .ok b) : c.Clear t path := by
  obtain ⟨hresolve, hfile⟩ := Files.FileTree.read_eq_ok_iff.mp hread
  obtain ⟨-, hdirs, -, -⟩ := Files.FileTree.resolve_eq_ok_iff.mp hresolve
  intro r hr
  have hlast : r ∈ (wayOf path).dropLast ∨ r = placeOf path := by
    rw [← Files.dropLast_wayOf_append path, List.mem_append, List.mem_singleton] at hr
    exact hr
  rcases hlast with hr | rfl
  · have hdir := hdirs r hr
    exact ⟨fun _ => hdir, fun _ => by rw [hdir]; simp⟩
  · refine ⟨?_, fun _ => by rw [hfile]; simp⟩
    rintro ⟨k, hk⟩
    rw [hk] at hfile
    exact absurd hfile (h k b)

/-- A cache is empty if no file is as deep in the tree as its entries. -/
theorem empty_of_size {t : FileTree} (h : ∀ e ∈ t.entries, e.1.size ≤ c.place.size) : c.Empty t := by
  intro k b hfile
  rw [FileTree.get?, if_neg (by simp [c.isGiven_entryPlace k]), List.lookup_eq_some_iff] at hfile
  obtain ⟨before, after, hentries, -⟩ := hfile
  have hsize := h (c.entryPlace k, .file b) (by rw [hentries]; simp)
  rw [entryPlace, Array.size_push] at hsize
  omega

/-- A path is clear that does not go as deep as the entries, and shares with the cache only directories
that are always there. -/
theorem clear_of_size {path : String} (h : ∀ r ∈ wayOf path, r.size ≤ c.place.size ∧
    (r ∈ c.ways → FileTree.isGiven r = true)) (t : FileTree) : c.Clear t path := by
  intro r hr
  refine ⟨?_, fun hway => ?_⟩
  · rintro ⟨k, rfl⟩
    have hsize := (h _ hr).1
    rw [entryPlace, Array.size_push] at hsize
    omega
  · rw [FileTree.get?, if_pos ((h r hr).2 hway)]
    simp

/-- Between two trees, nobody changed the entries of the cache or the way to them. -/
def Untouched (c : Cache) (t t' : FileTree) : Prop :=
  ∀ r, c.IsEntry r ∨ r ∈ wayOf c.entriesDir → t'.get? r = t.get? r

/-- The map with one more entry. -/
def keep (kept : Key → Option Entry) (k : Key) (e : Entry) (j : Key) : Option Entry :=
  if j = k then some e else kept j

namespace Holds

variable {t t' : FileTree} {kept : Key → Option Entry}

theorem get_of_some {k : Key} {e : Entry} (h : c.Holds t kept) (hk : kept k = some e) :
    c.get t k = .ok (some e) := by
  have hread : t.read (c.entryPath k) = .ok (content e) := by
    rw [Files.FileTree.read_eq_ok_iff, placeOf_entryPath]
    exact ⟨h.reached hk, h.stored hk⟩
  have hdecode : Entry.decode? (content e).data.toList = some e := (h.sound hk).1
  simp only [Cache.get, hread, hdecode, (h.sound hk).2, if_true]

/-- The cache finds what the map has. -/
theorem get {k : Key} {found : Option Entry} (h : c.Holds t kept) (hget : c.get t k = .ok found) :
    found = kept k := by
  cases hk : kept k with
  | none =>
    rw [Cache.get] at hget
    have hread : ∀ b, t.read (c.entryPath k) ≠ .ok b := by
      intro b hb
      have hfile := (Files.FileTree.read_eq_ok_iff.mp hb).2
      rw [placeOf_entryPath] at hfile
      exact h.free hk hfile
    cases hr : t.read (c.entryPath k) with
    | ok b => exact absurd hr (hread b)
    | error e =>
      simp only [hr] at hget
      split at hget
      · exact (Except.ok.inj hget).symm
      · split at hget <;> simp at hget
  | some e =>
    rw [h.get_of_some hk] at hget
    exact (Except.ok.inj hget).symm

/-- If the cache fails to answer, an operation on files failed. -/
theorem get_error {k : Key} {err : CacheError} (h : c.Holds t kept) (hget : c.get t k = .error err) :
    ∃ e, err = .file e ∨ err = .unreadable k (some e) := by
  rw [Cache.get] at hget
  cases hr : t.read (c.entryPath k) with
  | error e =>
    simp only [hr] at hget
    split at hget
    · simp at hget
    · split at hget
      · exact ⟨e, .inr (Except.error.inj hget).symm⟩
      · exact ⟨e, .inl (Except.error.inj hget).symm⟩
  | ok b =>
    have hfile := (Files.FileTree.read_eq_ok_iff.mp hr).2
    rw [placeOf_entryPath] at hfile
    cases hk : kept k with
    | none => exact absurd hfile (h.free hk)
    | some e =>
      rw [h.stored hk] at hfile
      obtain rfl : content e = b := Files.Node.file.inj (Option.some.inj hfile)
      have hdecode : Entry.decode? (content e).data.toList = some e := (h.sound hk).1
      simp [hr, hdecode] at hget

/-- The map outlasts all changes that leave its places alone. -/
theorem untouched (h : c.Holds t kept) (hsame : c.Untouched t t') : c.Holds t' kept where
  stored {k _} hk := by
    rw [hsame _ (.inl ⟨k, rfl⟩)]
    exact h.stored hk
  free {k _} hk := by
    rw [hsame _ (.inl ⟨k, rfl⟩)]
    exact h.free hk
  reached {k _} hk := by
    have hresolve := h.reached hk
    obtain ⟨hfault, -, hfits, hplace⟩ := Files.FileTree.resolve_eq_ok_iff.mp hresolve
    refine Files.FileTree.resolve_eq_ok_iff.mpr ⟨hfault, fun r hr => ?_, hfits, hplace⟩
    rw [wayOf_entryPath, List.dropLast_concat] at hr
    rw [hsame r (.inr hr)]
    exact resolve_entryPath_eq_ok hresolve r hr
  sound := h.sound

/-- Making directories does not change the map. -/
theorem onlyMakes {places : List Files.Place} (h : c.Holds t kept) (hmakes : OnlyMakes places t t') :
    c.Holds t' kept where
  stored {k _} hk := by
    rcases hmakes (c.entryPlace k) with hsame | ⟨hnone, -, -⟩
    · exact hsame.trans (h.stored hk)
    · rw [h.stored hk] at hnone
      simp at hnone
  free {k _} hk := by
    rcases hmakes (c.entryPlace k) with hsame | ⟨-, hdir, -⟩
    · rw [hsame]
      exact h.free hk
    · rw [hdir]
      simp
  reached {k _} hk := by
    have hresolve := h.reached hk
    obtain ⟨hfault, hdirs, hfits, hplace⟩ := Files.FileTree.resolve_eq_ok_iff.mp hresolve
    refine Files.FileTree.resolve_eq_ok_iff.mpr ⟨hfault, fun r hr => ?_, hfits, hplace⟩
    rcases hmakes r with hsame | ⟨-, hdir, -⟩
    · exact hsame.trans (hdirs r hr)
    · exact hdir
  sound := h.sound

/-- Storing an entry adds it to the map. -/
theorem putOn {refuses : PutStep → Bool} {k : Key} {e : Entry} (h : c.Holds t kept)
    (hput : c.putOn refuses t k e = (.ok (), t'))
    (he : Entry.decode? (stamped e).encode = some (stamped e)) :
    c.Holds t' (keep kept k (stamped e)) := by
  obtain ⟨t₁, hmakes, htarget, hnodir, hget⟩ := putOn_eq_ok hput
  have h₁ := h.onlyMakes hmakes
  have hway : ∀ r ∈ wayOf c.entriesDir, t'.get? r = some .directory := fun r hr => by
    -- The new entry takes the place of no directory on the way.
    have hdir := resolve_entryPath_eq_ok htarget r hr
    have hne : r ≠ c.entryPlace k := by
      rintro rfl
      exact hnodir hdir
    rw [hget, if_neg hne]
    exact hdir
  have hother : ∀ {j}, j ≠ k → t'.get? (c.entryPlace j) = t₁.get? (c.entryPlace j) := fun {j} hj => by
    rw [hget, if_neg fun heq => hj (entryPlace_injective heq)]
  have hreached : ∀ {j}, t₁.resolve (c.entryPath j) = .ok (c.entryPlace j) →
      t'.resolve (c.entryPath j) = .ok (c.entryPlace j) := fun {j} hj => by
    obtain ⟨hfault, -, hfits, hplace⟩ := Files.FileTree.resolve_eq_ok_iff.mp hj
    refine Files.FileTree.resolve_eq_ok_iff.mpr ⟨hfault, fun r hr => ?_, hfits, hplace⟩
    rw [wayOf_entryPath, List.dropLast_concat] at hr
    exact hway r hr
  refine ⟨fun {j e'} hj => ?_, fun {j b} hj => ?_, fun {j e'} hj => ?_, fun {j e'} hj => ?_⟩
  all_goals
    rw [keep] at hj
    split at hj
  · next heq =>
    obtain rfl := Option.some.inj hj
    rw [hget, if_pos (by rw [heq])]
  · next hne => exact (hother hne).trans (h₁.stored hj)
  · simp at hj
  · next hne =>
    rw [hother hne]
    exact h₁.free hj
  · next heq =>
    rw [heq]
    exact hreached htarget
  · exact hreached (h₁.reached hj)
  · obtain rfl := Option.some.inj hj
    exact ⟨he, rfl⟩
  · exact h₁.sound hj

/-- Removing all entries empties the map. -/
theorem dropAll (h : c.Holds t kept) : c.Holds (c.dropAll t) fun _ => none := by
  apply Empty.holds
  intro k b
  rw [Cache.dropAll, Files.FileTree.removeAll]
  cases hdir : t.resolve c.entriesDir with
  | ok p =>
    obtain ⟨-, -, -, rfl⟩ := Files.FileTree.resolve_eq_ok_iff.mp hdir
    have hnone : (t.eraseBelow c.place).get? (c.entryPlace k) = none :=
      t.get?_eraseBelow_push c.place (normal_fileName k)
    show (t.eraseBelow c.place).get? (c.entryPlace k) ≠ _
    rw [hnone]
    simp
  | error cause =>
    -- Without its directory there is no entry to remove.
    cases hk : kept k with
    | none => exact h.free hk
    | some e =>
      rw [resolve_entriesDir (h.reached hk)] at hdir
      cases hdir

end Holds

end Midend.Cache
