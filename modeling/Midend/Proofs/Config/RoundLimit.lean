import Midend.Cli.Run
import Midend.Proofs.Action.Runs

/-!
# The least number of rounds

The limit for the rounds comes from an environment variable, a configuration file or a flag, and each of
these refuses limits below 1, except that the file is checked only if its key is written in lower case.  A
key fills the field whatever the case of its letters, so a file can set a limit that nobody checks.  That is
the only way to get one below 1.

Which limit a file sets, if several of its keys fill the field, is up to the library that reads it.  All that
is known of a library is that a filled field has the value of a key for it.

## Main definitions

* `Config.setting`: the value of a field.
* `Config.Decoder.Lawful`: what is known of a library.
* `Config.Unchecked`: a document may set the limit to a number below 1.

## Main results

* `Config.fillField_ok`, `Config.fill_ok`: what one key does, and what all of them do.
* `Config.lawful_decodeBy`: filling the fields is lawful, in whatever order.
* `one_le_maxRounds_or_unchecked`: the limit is at least 1 unless it comes from an unchecked document.
-/

namespace Midend

open Toml (sameButCase fieldFor? Filling)
open Files (FileTree)

namespace Config

/-! ### Libraries -/

/-- The value that a field was filled with. -/
def setting (c : Config) : String → Option Toml.Value
  | "max_rounds" => c.maxRounds.map .integer
  | "peephole" => c.peephole.map .boolean
  | "constprop" => c.constProp.map .boolean
  | "verify" => c.verify.map .boolean
  | _ => none

/-- What a library makes of documents is told by their keys.  A key fills the field whose name it is,
exactly or but for the case of letters. -/
structure Decoder.Lawful (decode : Decoder) : Prop where
  /-- A field that is filled has the value of a key for it. -/
  filled : ∀ doc d name v, decode doc = .ok d → d.config.setting name = some v →
    ∃ key, (key, v) ∈ doc.root ∧ fieldFor? fieldNames key = some name
  /-- A field is filled if there is a key for it. -/
  fills : ∀ doc d name key v, decode doc = .ok d → (key, v) ∈ doc.root →
    fieldFor? fieldNames key = some name → (d.config.setting name).isSome
  /-- No key that fills a field is among those that fill none. -/
  undecoded : ∀ doc d key v, decode doc = .ok d → (key, v) ∈ doc.root → [key] ∈ d.undecoded →
    fieldFor? fieldNames key = none
  /-- A key is there just if one of exactly this text is. -/
  isDefined : ∀ doc d name, decode doc = .ok d →
    (d.isDefined name = true ↔ ∃ v, (name, v) ∈ doc.root)

/-! ### Fields -/

/-- The key that sets the limit, in any case, and no other one, fills its field. -/
theorem fieldFor?_eq_maxRounds_iff {key : String} :
    fieldFor? fieldNames key = some "max_rounds" ↔ sameButCase "max_rounds" key = true := by
  rw [fieldFor?]
  split
  · next hmem =>
    rw [List.contains_iff_mem, fieldNames] at hmem
    simp only [List.mem_cons, List.not_mem_nil, or_false] at hmem
    rcases hmem with rfl | rfl | rfl | rfl <;> decide
  · rw [fieldNames, List.find?_cons]
    split
    · next hsame => simp [hsame]
    · next hother =>
      rw [hother]
      refine iff_of_false (fun hfound => ?_) Bool.false_ne_true
      exact absurd (List.mem_of_find?_eq_some hfound) (by decide)

theorem integer_eq_ok {key : Toml.Key} {v : Toml.Value} {ks : List Toml.Key} {r : Int × List Toml.Key} :
    Filling.integer key v ks = .ok r ↔ v = .integer r.1 ∧ r.2 = ks := by
  cases v with
  | integer m => exact (Source.pure_eq_ok (a := m)).trans (by simp [eq_comm])
  | _ => exact iff_of_false (fun h => (Source.throw_eq_ok.mp h).elim) (by simp)

theorem boolean_eq_ok {key : Toml.Key} {v : Toml.Value} {ks : List Toml.Key} {r : Bool × List Toml.Key} :
    Filling.boolean key v ks = .ok r ↔ v = .boolean r.1 ∧ r.2 = ks := by
  cases v with
  | boolean b => exact (Source.pure_eq_ok (a := b)).trans (by simp [eq_comm])
  | _ => exact iff_of_false (fun h => (Source.throw_eq_ok.mp h).elim) (by simp)

theorem mem_of_fieldFor? {fields : List String} {key name : String} (h : fieldFor? fields key = some name) :
    name ∈ fields := by
  unfold fieldFor? at h
  split at h
  · next hkey =>
    obtain rfl := Option.some.inj h
    exact List.contains_iff_mem.mp hkey
  · exact List.mem_of_find?_eq_some h

/-- Setting a field sets this one only. -/
theorem setting_set (c : Config) (name : String) :
    (∀ n, ({ c with maxRounds := some n } : Config).setting name =
      if some "max_rounds" = some name then some (.integer n) else c.setting name) ∧
    (∀ b, ({ c with peephole := some b } : Config).setting name =
      if some "peephole" = some name then some (.boolean b) else c.setting name) ∧
    (∀ b, ({ c with constProp := some b } : Config).setting name =
      if some "constprop" = some name then some (.boolean b) else c.setting name) ∧
    ∀ b, ({ c with verify := some b } : Config).setting name =
      if some "verify" = some name then some (.boolean b) else c.setting name := by
  refine ⟨fun n => ?_, fun b => ?_, fun b => ?_, fun b => ?_⟩ <;> rw [setting.eq_def, setting.eq_def] <;>
    split <;> simp_all [eq_comm]

/-- A key that fills a field by `set`, where `read` takes values of one type only. -/
theorem fillWith_ok {α : Type} (field : String) {read : Toml.Key → Toml.Value → Filling α}
    {of : α → Toml.Value} {set : Config → α → Config}
    (hread : ∀ {key v ks r}, read key v ks = .ok r ↔ v = of r.1 ∧ r.2 = ks)
    (hset : ∀ c a name,
      (set c a).setting name = if some field = some name then some (of a) else c.setting name)
    {c c' : Config} {key : Toml.Key} {v : Toml.Value} {ks ks' : List Toml.Key}
    (h : (do Filling.addKey key; pure (set c (← read key v)) : Filling Config).run ks = .ok (c', ks')) :
    (∀ name, c'.setting name = if some field = some name then some v else c.setting name) ∧
    (∀ k, k ∈ ks' ↔ k ∈ ks ∨ (some field).isSome ∧ k = key) ∧
    ∀ (c₁ : Config) (ks₁ : List Toml.Key), ∃ r,
      (do Filling.addKey key; pure (set c₁ (← read key v)) : Filling Config).run ks₁ = .ok r := by
  obtain ⟨_, _, hadd, h⟩ := Source.bind_eq_ok.mp h
  obtain ⟨-, rfl⟩ := Prod.mk.inj (Except.ok.inj hadd)
  obtain ⟨a, _, hvalue, h⟩ := Source.bind_eq_ok.mp h
  obtain ⟨hv, hks⟩ := hread.mp hvalue
  obtain ⟨rfl, rfl⟩ := Source.pure_eq_ok.mp h
  subst hv hks
  refine ⟨hset c a, fun k => ?_, fun c₁ ks₁ => ⟨(set c₁ a, ks₁.insert key), ?_⟩⟩
  · simp [or_comm]
  · refine Source.bind_eq_ok.mpr ⟨(), ks₁.insert key, rfl, ?_⟩
    exact Source.bind_eq_ok.mpr ⟨a, ks₁.insert key, hread.mpr ⟨rfl, rfl⟩, rfl⟩

/-- **What one key does.**  The field is filled with its value, and the key is noted; other fields stay, and a
key without a field does nothing.  Whether the value can be taken depends on the key and the value only. -/
theorem fillField_ok {c c' : Config} {key : String} {v : Toml.Value} {ks ks' : List Toml.Key}
    (h : (c.fillField key v).run ks = .ok (c', ks')) :
    (∀ name, c'.setting name =
      if fieldFor? fieldNames key = some name then some v else c.setting name) ∧
    (∀ k, k ∈ ks' ↔ k ∈ ks ∨ (fieldFor? fieldNames key).isSome ∧ k = [key]) ∧
    ∀ (c₁ : Config) (ks₁ : List Toml.Key), ∃ r, (c₁.fillField key v).run ks₁ = .ok r := by
  unfold fillField at h ⊢
  cases hfield : fieldFor? fieldNames key with
  | none =>
    rw [hfield] at h
    obtain ⟨rfl, rfl⟩ := Source.pure_eq_ok.mp h
    simp only [reduceCtorEq, if_false, Option.isSome_none, Bool.false_eq_true, false_and, or_false,
      implies_true, true_and]
    exact fun c₁ ks₁ => ⟨(c₁, ks₁), rfl⟩
  | some field =>
    rw [hfield] at h
    have hmem := mem_of_fieldFor? hfield
    simp only [fieldNames, List.mem_cons, List.not_mem_nil, or_false] at hmem
    rcases hmem with rfl | rfl | rfl | rfl
    · exact fillWith_ok "max_rounds" integer_eq_ok (fun c n name => (c.setting_set name).1 n) h
    · exact fillWith_ok "peephole" boolean_eq_ok (fun c b name => (c.setting_set name).2.1 b) h
    · exact fillWith_ok "constprop" boolean_eq_ok (fun c b name => (c.setting_set name).2.2.1 b) h
    · exact fillWith_ok "verify" boolean_eq_ok (fun c b name => (c.setting_set name).2.2.2 b) h

/-! ### Tables -/

/-- **What all keys do.**  A field gets the value of one of its keys, if there is one, and else stays as it is;
the keys with a field are noted. -/
theorem fill_ok {c c' : Config} {table : Toml.Table} {ks ks' : List Toml.Key}
    (h : (c.fill table).run ks = .ok (c', ks')) :
    (∀ name, (∃ key v, (key, v) ∈ table ∧ fieldFor? fieldNames key = some name ∧
        c'.setting name = some v) ∨
      (∀ key v, (key, v) ∈ table → fieldFor? fieldNames key ≠ some name) ∧
        c'.setting name = c.setting name) ∧
    ∀ k, k ∈ ks' ↔ k ∈ ks ∨ ∃ key v, (key, v) ∈ table ∧ (fieldFor? fieldNames key).isSome ∧ k = [key] := by
  induction table generalizing c ks with
  | nil =>
    obtain ⟨rfl, rfl⟩ := Source.pure_eq_ok.mp h
    simp
  | cons e table ih =>
    obtain ⟨key, v⟩ := e
    obtain ⟨c₁, ks₁, hfield, hrest⟩ := Source.bind_eq_ok.mp h
    obtain ⟨hset, hkeys, -⟩ := fillField_ok hfield
    obtain ⟨ihset, ihkeys⟩ := ih hrest
    refine ⟨fun name => ?_, fun k => ?_⟩
    · -- Later keys win, so the rest of the table is asked first.
      rcases ihset name with ⟨key', v', hmem, hname, hvalue⟩ | ⟨hnone, hsame⟩
      · exact .inl ⟨key', v', List.mem_cons_of_mem _ hmem, hname, hvalue⟩
      · rw [hset] at hsame
        split at hsame
        · next hname => exact .inl ⟨key, v, List.mem_cons_self, hname, hsame⟩
        · next hname =>
          refine .inr ⟨fun key' v' hmem => ?_, hsame⟩
          rcases List.mem_cons.mp hmem with heq | hmem
          · rw [(Prod.mk.inj heq).1]
            exact hname
          · exact hnone key' v' hmem
    · rw [ihkeys, hkeys]
      simp only [List.mem_cons, Prod.mk.injEq]
      grind

/-- If all keys of a table can be taken, so can those of any table with no others. -/
theorem exists_fill {c : Config} {table : Toml.Table} {ks : List Toml.Key} {r : Config × List Toml.Key}
    (h : (c.fill table).run ks = .ok r) (table' : Toml.Table) (hsub : ∀ e ∈ table', e ∈ table)
    (c₁ : Config) (ks₁ : List Toml.Key) : ∃ r, (c₁.fill table').run ks₁ = .ok r := by
  have hall : ∀ e ∈ table, ∀ (c₁ : Config) (ks₁ : List Toml.Key),
      ∃ r, (c₁.fillField e.1 e.2).run ks₁ = .ok r := by
    clear hsub
    induction table generalizing c ks with
    | nil => exact fun _ he => absurd he List.not_mem_nil
    | cons e table ih =>
      obtain ⟨c', ks', hfield, hrest⟩ := Source.bind_eq_ok.mp h
      exact List.forall_mem_cons.mpr ⟨(fillField_ok hfield).2.2, ih hrest⟩
  induction table' generalizing c₁ ks₁ with
  | nil => exact ⟨(c₁, ks₁), rfl⟩
  | cons e table' ih =>
    rw [List.forall_mem_cons] at hsub
    obtain ⟨⟨c₂, ks₂⟩, hfield⟩ := hall e hsub.1 c₁ ks₁
    obtain ⟨r, hrest⟩ := ih hsub.2 c₂ ks₂
    exact ⟨r, Source.bind_eq_ok.mpr ⟨c₂, ks₂, hfield, hrest⟩⟩

theorem fill_append (c : Config) (table table' : Toml.Table) :
    c.fill (table ++ table') = (c.fill table >>= fun c' => c'.fill table') := by
  induction table generalizing c with
  | nil => exact (pure_bind _ _).symm
  | cons e table ih =>
    rw [List.cons_append, fill, fill, bind_assoc]
    exact bind_congr fun c' => ih c'

/-! ### Documents -/

theorem decodeBy_eq_ok {order : Toml.Table → Toml.Table} {doc : Toml.Document} {d : Decoded}
    (h : decodeBy order doc = .ok d) : ∃ c ks, (fill {} (order doc.root)).run [] = .ok (c, ks) ∧
      d = ⟨c, doc.unknownKeys ks, doc.isDefined⟩ := by
  obtain ⟨⟨c, ks⟩, hfill, h⟩ := Source.exists_of_bind_ok h
  exact ⟨c, ks, hfill, (Except.ok.inj h).symm⟩

/-- Filling the fields is lawful, in whatever order. -/
theorem lawful_decodeBy {order : Toml.Table → Toml.Table} (horder : ∀ table, (order table).Perm table) :
    (decodeBy order).Lawful := by
  have hmem : ∀ doc : Toml.Document, ∀ e, e ∈ order doc.root ↔ e ∈ doc.root :=
    fun doc e => (horder doc.root).mem_iff
  have hempty : ∀ name, ({} : Config).setting name = none := by
    intro name
    rw [setting.eq_def]
    split <;> rfl
  refine ⟨fun doc d name v h hv => ?_, fun doc d name key v h hkey hname => ?_,
    fun doc d key v h hkey hun => ?_, fun doc d name h => ?_⟩ <;>
    obtain ⟨c, ks, hfill, rfl⟩ := decodeBy_eq_ok h
  · obtain ⟨key, v', hkey, hname, hv'⟩ | ⟨-, hnone⟩ := (fill_ok hfill).1 name
    · obtain rfl := Option.some.inj (hv'.symm.trans hv)
      exact ⟨key, (hmem doc _).mp hkey, hname⟩
    · rw [hempty] at hnone
      exact absurd (hnone.symm.trans hv) (by simp)
  · obtain ⟨key', v', -, -, hv'⟩ | ⟨hnone, -⟩ := (fill_ok hfill).1 name
    · exact Option.isSome_of_eq_some hv'
    · exact absurd hname (hnone key v ((hmem doc _).mpr hkey))
  · cases hname : fieldFor? fieldNames key with
    | none => rfl
    | some name =>
      have hnoted : [key] ∈ ks := ((fill_ok hfill).2 [key]).mpr
        (.inr ⟨key, v, (hmem doc _).mpr hkey, by rw [hname]; rfl, rfl⟩)
      have hun' := (List.mem_filter.mp hun).2
      simp [hnoted] at hun'
  · change (doc.root.lookup name).isSome = true ↔ _
    rw [List.lookup_isSome_iff]
    simp

/-- What is checked of a configuration. -/
theorem check_eq_ok {d : Decoded} {c : Config} : check d = .ok c ↔ c = d.config ∧ d.undecoded = [] ∧
    ∀ n, d.config.maxRounds = some n → d.isDefined "max_rounds" = true → 1 ≤ n := by
  unfold check
  cases hkeys : d.undecoded with
  | cons key keys => simp
  | nil =>
    cases hrounds : d.config.maxRounds with
    | none => simpa using eq_comm
    | some n =>
      by_cases hlow : d.isDefined "max_rounds" = true ∧ n < 1
      · simp [hlow]
      · simp only [List.isEmpty_nil, Bool.not_true, Bool.false_eq_true, if_false, Bool.and_eq_true,
          decide_eq_true_eq, hlow, Except.ok.injEq, Option.some.injEq, true_and]
        rw [eq_comm, and_iff_left]
        rintro _ rfl hdefined
        exact Int.not_lt.mp fun hn => hlow ⟨hdefined, hn⟩

theorem loadFile_eq_ok {t : FileTree} {path : String} {decode : Decoder} {doc : Toml.Document} {c : Config}
    (hdoc : loadDocument t path = .ok doc) :
    loadFile t path decode = .ok c ↔ ∃ d, decode doc = .ok d ∧ check d = .ok c := by
  have hload : loadFile t path decode = ((decode doc).mapError .document >>= check) := by
    unfold loadFile
    rw [hdoc]
    rfl
  rw [hload]
  constructor
  · intro h
    obtain ⟨d, hd, hcheck⟩ := Source.exists_of_bind_ok h
    exact ⟨d, Source.mapError_eq_ok.mp hd, hcheck⟩
  · rintro ⟨d, hd, hcheck⟩
    rw [hd, ← hcheck]
    rfl

theorem setting_maxRounds {c : Config} {n : Int} (h : c.maxRounds = some n) :
    c.setting "max_rounds" = some (.integer n) := by
  rw [setting, h]
  rfl

/-- The document has no key that is the name of the limit, but one that is this name in another case, with the
value `n` below 1. -/
structure Unchecked (doc : Toml.Document) (n : Int) : Prop where
  below : n < 1
  undefined : ∀ v, ("max_rounds", v) ∉ doc.root
  spelled : ∃ key, (key, .integer n) ∈ doc.root ∧ sameButCase "max_rounds" key = true

open Classical in
/-- The entries of a table, the given one last. -/
noncomputable def lastOf (e : String × Toml.Value) (table : Toml.Table) : Toml.Table :=
  if e ∈ table then table.erase e ++ [e] else table

theorem lastOf_perm (e : String × Toml.Value) (table : Toml.Table) : (lastOf e table).Perm table := by
  classical
  unfold lastOf
  split
  · next he => exact (List.perm_append_singleton _ _).trans (List.perm_cons_erase he).symm
  · exact .refl _

section Files

variable {t : FileTree} {path : String} {doc : Toml.Document} (hdoc : loadDocument t path = .ok doc)
  {decode : Decoder} {c : Config} {n : Int}

include hdoc

/-- A file that is accepted sets no limit below 1 unless it is unchecked. -/
theorem Decoder.Lawful.unchecked (h : decode.Lawful) (hload : loadFile t path decode = .ok c)
    (hn : c.maxRounds = some n) (hlow : n < 1) : Unchecked doc n := by
  obtain ⟨d, hd, hcheck⟩ := (loadFile_eq_ok hdoc).mp hload
  obtain ⟨rfl, -, hchecked⟩ := check_eq_ok.mp hcheck
  refine ⟨hlow, fun v hv => ?_, ?_⟩
  · have := hchecked n hn ((h.isDefined doc d _ hd).mpr ⟨v, hv⟩)
    omega
  · obtain ⟨key, hkey, hname⟩ := h.filled doc d _ _ hd (setting_maxRounds hn)
    exact ⟨key, hkey, fieldFor?_eq_maxRounds_iff.mp hname⟩

/-- If all its keys for the limit have values below 1, it sets such a limit. -/
theorem Decoder.Lawful.below (h : decode.Lawful) (hload : loadFile t path decode = .ok c)
    (hun : Unchecked doc n)
    (hall : ∀ key m, (key, .integer m) ∈ doc.root → sameButCase "max_rounds" key = true → m < 1) :
    ∃ m, c.maxRounds = some m ∧ m < 1 := by
  obtain ⟨d, hd, hcheck⟩ := (loadFile_eq_ok hdoc).mp hload
  obtain ⟨rfl, -, -⟩ := check_eq_ok.mp hcheck
  obtain ⟨key, hkey, hname⟩ := hun.spelled
  have hsome := h.fills doc d _ key _ hd hkey (fieldFor?_eq_maxRounds_iff.mpr hname)
  cases hrounds : d.config.maxRounds with
  | none =>
    rw [setting, hrounds] at hsome
    cases hsome
  | some m =>
    obtain ⟨key', hkey', hname'⟩ := h.filled doc d _ _ hd (setting_maxRounds hrounds)
    exact ⟨m, rfl, hall key' m hkey' (fieldFor?_eq_maxRounds_iff.mp hname')⟩

/-- **A library that takes the unchecked key last makes its value the limit.** -/
theorem exists_lawful (hload : loadFile t path = .ok c) (hun : Unchecked doc n) :
    ∃ decode : Decoder, decode.Lawful ∧ ∃ c', loadFile t path decode = .ok c' ∧ c'.maxRounds = some n := by
  obtain ⟨d, hd, hcheck⟩ := (loadFile_eq_ok hdoc).mp hload
  obtain ⟨c₀, ks, hfill, rfl⟩ := decodeBy_eq_ok hd
  obtain ⟨-, hknown, -⟩ := check_eq_ok.mp hcheck
  obtain ⟨key, hkey, hname⟩ := hun.spelled
  have horder := lastOf_perm (key, .integer n)
  have hlaw := lawful_decodeBy horder
  obtain ⟨⟨c', ks'⟩, hfill'⟩ := exists_fill hfill (lastOf (key, .integer n) doc.root)
    (fun e he => (horder doc.root).mem_iff.mp he) {} []
  have hdecode : decodeBy (lastOf (key, .integer n)) doc = .ok ⟨c', doc.unknownKeys ks', doc.isDefined⟩ := by
    unfold decodeBy
    rw [hfill']
    rfl
  have hlast : c'.maxRounds = some n := by
    rw [lastOf, if_pos hkey, fill_append] at hfill'
    obtain ⟨c₁, ks₁, -, hrest⟩ := Source.bind_eq_ok.mp hfill'
    rcases (fill_ok hrest).1 "max_rounds" with ⟨_, _, hmem, -, hvalue⟩ | ⟨hnone, -⟩
    · obtain ⟨-, rfl⟩ := Prod.mk.inj (List.mem_singleton.mp hmem)
      obtain ⟨m, hm, hinteger⟩ := Option.map_eq_some_iff.mp hvalue
      rw [hm, Toml.Value.integer.inj hinteger]
    · exact absurd (fieldFor?_eq_maxRounds_iff.mpr hname) (hnone key _ List.mem_cons_self)
  refine ⟨_, hlaw, c', (loadFile_eq_ok hdoc).mpr ⟨_, hdecode, check_eq_ok.mpr
    ⟨rfl, ?_, fun m _ hdefined => ?_⟩⟩, hlast⟩
  · -- The same keys fill fields.
    unfold Toml.Document.unknownKeys at hknown ⊢
    rw [List.filter_eq_nil_iff] at hknown ⊢
    intro k hk
    have hk' := hknown k hk
    simp only [Bool.not_eq_true', List.contains_eq_mem, decide_eq_false_iff_not,
      (fill_ok hfill).2, (fill_ok hfill').2, (horder doc.root).mem_iff] at hk' ⊢
    exact hk'
  · obtain ⟨v, hv⟩ := (hlaw.isDefined doc _ _ hdecode).mp hdefined
    exact absurd hv (hun.undefined v)

end Files

end Config

/-! ### Options -/

theorem Defaults.lt_of_intVariable {key text : String} {preset least n : Int}
    (h : Defaults.intVariable key text preset least = .ok n) (hpreset : least < preset) : least < n := by
  rw [intVariable] at h
  split at h
  · obtain rfl := Except.ok.inj h
    exact hpreset
  · split at h
    · cases h
    · dsimp only at h
      split at h
      · cases h
      · next hlow =>
        obtain rfl := Except.ok.inj h
        omega

/-- The environment sets no limit below 1: numbers that are too large to be signed are refused. -/
theorem Defaults.one_le_maxRounds {rounds verify : String} {d : Defaults}
    (h : Defaults.ofEnvironment rounds verify = .ok d) : 1 ≤ d.maxRounds := by
  obtain ⟨n, hn, h⟩ := Source.exists_of_bind_ok h
  obtain ⟨b, -, h⟩ := Source.exists_of_bind_ok h
  obtain rfl := Except.ok.inj h
  exact lt_of_intVariable hn (by decide)

open Cli in
/-- The options of a run have the limit of the flag or else that of the file or else that of the
environment. -/
theorem resolveOptions_maxRounds {ctx : Context} {s : Settings} {t : FileTree} {decode : Config.Decoder}
    {o : Options} (h : resolveOptions ctx s t decode = .ok o) :
    (∃ n, s.rounds = some n ∧ 1 ≤ n ∧ o.maxRounds = n) ∨
    s.rounds = none ∧ (s.config = "" ∧ o.maxRounds = ctx.defaults.maxRounds ∨
      s.config ≠ "" ∧ ∃ c, Config.loadFile t s.config decode = .ok c ∧
        o.maxRounds = c.maxRounds.getD ctx.defaults.maxRounds) := by
  cases hrounds : s.rounds with
  | some n =>
    by_cases hlow : n < 1
    · simp only [resolveOptions, hrounds, if_pos hlow, bind, Except.bind] at h
      split at h
      · cases h
      · split at h <;> cases h
    · simp only [resolveOptions, hrounds, if_neg hlow, bind, Except.bind] at h
      refine .inl ⟨n, rfl, by omega, ?_⟩
      split at h
      · obtain rfl := Except.ok.inj h
        rfl
      · split at h
        · obtain rfl := Except.ok.inj h
          rfl
        · cases h
  | none =>
    simp only [resolveOptions, hrounds, bind, Except.bind] at h
    refine .inr ⟨rfl, ?_⟩
    split at h
    · next hconfig =>
      obtain rfl := Except.ok.inj h
      exact .inl ⟨hconfig, rfl⟩
    · next hconfig =>
      split at h
      · next c hload =>
        obtain rfl := Except.ok.inj h
        exact .inr ⟨hconfig, c, hload, rfl⟩
      · cases h

/-- **The limit for the rounds is at least 1, unless it comes from a file that writes its key in another
case.**  Let the environment be accepted, and a configuration file and flags on top of it, whatever library
reads the file.  Then the limit of the options is at least 1, except if no flag sets it and the file sets it
by a key that is not in lower case.  Likewise for the limit that any file sets that is accepted.  If all keys
of such a file have values below 1, so has the limit; and each of these values is the limit for some library,
whatever the order in which the keys are written. -/
theorem one_le_maxRounds_or_unchecked {rounds verify : String} {ctx : Cli.Context} {s : Cli.Settings}
    {t : FileTree} {o : Options} {decode : Config.Decoder} (hdecode : decode.Lawful)
    (henv : Defaults.ofEnvironment rounds verify = .ok ctx.defaults)
    (hoptions : Cli.resolveOptions ctx s t decode = .ok o) :
    (1 ≤ o.maxRounds ∨ s.rounds = none ∧ s.config ≠ "" ∧
      ∃ doc, Config.loadDocument t s.config = .ok doc ∧ Config.Unchecked doc o.maxRounds) ∧
    ∀ path doc, Config.loadDocument t path = .ok doc →
      (∀ c n, Config.loadFile t path decode = .ok c → c.maxRounds = some n →
        1 ≤ n ∨ Config.Unchecked doc n) ∧
      (∀ c n, Config.loadFile t path decode = .ok c → Config.Unchecked doc n →
        (∀ key m, (key, .integer m) ∈ doc.root → sameButCase "max_rounds" key = true → m < 1) →
        ∃ m, c.maxRounds = some m ∧ m < 1) ∧
      ∀ c n, Config.loadFile t path = .ok c → Config.Unchecked doc n →
        ∃ decode' : Config.Decoder, decode'.Lawful ∧
          ∃ c', Config.loadFile t path decode' = .ok c' ∧ c'.maxRounds = some n := by
  have hfile : ∀ {path doc c n}, Config.loadDocument t path = .ok doc →
      Config.loadFile t path decode = .ok c → c.maxRounds = some n → 1 ≤ n ∨ Config.Unchecked doc n := by
    intro path doc c n hdoc hload hn
    by_cases hlow : n < 1
    · exact .inr (hdecode.unchecked hdoc hload hn hlow)
    · exact .inl (Int.not_lt.mp hlow)
  refine ⟨?_, fun path doc hdoc => ⟨fun c n => hfile hdoc, fun c n => hdecode.below hdoc,
    fun c n => Config.exists_lawful hdoc⟩⟩
  have hdefault := Defaults.one_le_maxRounds henv
  rcases resolveOptions_maxRounds hoptions with
    ⟨n, -, hn, ho⟩ | ⟨hrounds, ⟨-, ho⟩ | ⟨hconfig, c, hload, ho⟩⟩
  · exact .inl (ho ▸ hn)
  · exact .inl (ho ▸ hdefault)
  · obtain ⟨doc, hdoc, -⟩ := Source.exists_of_bind_ok hload
    cases hset : c.maxRounds with
    | none =>
      rw [hset] at ho
      exact .inl (ho ▸ hdefault)
    | some n =>
      rw [hset, Option.getD_some] at ho
      rw [ho]
      exact (hfile hdoc hload hset).imp_right fun hun => ⟨hrounds, hconfig, doc, hdoc, hun⟩

/-- Configuration files whose keys are not in lower case: one in capitals, and two in different cases. -/
def loudConfig : FileTree :=
  ⟨[(#["loud.toml"], .file "MAX_ROUNDS = 0\n".toUTF8),
    (#["mixed.toml"], .file "MAX_ROUNDS = 0\nMax_Rounds = 5\n".toUTF8)]⟩

/-- The limit is 0 if the file sets it.  If two keys set it, some library takes the first one, although the
other one is written last. -/
theorem one_le_maxRounds_or_unchecked_loud :
    Config.decode.Lawful ∧ Defaults.ofEnvironment "" "" = .ok ({} : Cli.Context).defaults ∧
    Cli.resolveOptions {} { config := "loud.toml" } loudConfig = .ok { maxRounds := 0 } ∧
    (∃ doc, Config.loadDocument loudConfig "loud.toml" = .ok doc ∧ Config.Unchecked doc 0) ∧
    Config.loadFile loudConfig "mixed.toml" = .ok { maxRounds := some 5 } ∧
    ∃ decode : Config.Decoder, decode.Lawful ∧
      ∃ c, Config.loadFile loudConfig "mixed.toml" decode = .ok c ∧ c.maxRounds = some 0 := by
  have hdecode : Config.decode.Lawful := Config.lawful_decodeBy fun _ => .refl _
  have henv : Defaults.ofEnvironment "" "" = .ok ({} : Cli.Context).defaults := rfl
  have hlow : Cli.resolveOptions {} { config := "loud.toml" } loudConfig = .ok { maxRounds := 0 } :=
    Source.eq_ok_of_toOption (by decide +kernel)
  have hmixed : Config.loadFile loudConfig "mixed.toml" = .ok { maxRounds := some 5 } :=
    Source.eq_ok_of_toOption (by decide +kernel)
  obtain ⟨hlimit, hfiles⟩ := one_le_maxRounds_or_unchecked hdecode henv hlow
  refine ⟨hdecode, henv, hlow, (hlimit.resolve_left (by decide)).2.2, hmixed, ?_⟩
  have hroot : ((Config.loadDocument loudConfig "mixed.toml").toOption.map fun doc =>
      doc.root.map fun e => (e.1, (Filling.integer [] e.2 []).toOption)) =
        some [("MAX_ROUNDS", some (0, [])), ("Max_Rounds", some (5, []))] := by
    decide +kernel
  obtain ⟨doc, hdoc, -⟩ := Source.exists_of_bind_ok hmixed
  rw [hdoc] at hroot
  obtain ⟨⟨key, v⟩, _, hcons, hfirst, hrest⟩ := List.map_eq_cons_iff.mp (Option.some.inj hroot)
  obtain ⟨⟨key', v'⟩, _, rfl, hsecond, hnil⟩ := List.map_eq_cons_iff.mp hrest
  obtain rfl := List.map_eq_nil_iff.mp hnil
  obtain ⟨rfl, hv⟩ := Prod.mk.inj hfirst
  obtain ⟨rfl, -⟩ := Prod.mk.inj hsecond
  obtain ⟨rfl, -⟩ := Config.integer_eq_ok.mp (Source.eq_ok_of_toOption hv)
  refine (hfiles _ doc hdoc).2.2 _ 0 hmixed ⟨by decide, fun w hw => ?_, "MAX_ROUNDS", ?_, by decide⟩
  · simp [hcons] at hw
  · simp [hcons]

end Midend
