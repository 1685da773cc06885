import Mathlib.Data.List.Induction
import Midend.Proofs.Cache.StoreMap

/-!
# What a cache gives back

Storing, reading and removing entries are calls, made one after the other on the files of one cache,
and storing may be refused by the device at any step.  Whatever the calls, an entry is found under a key
just if a call stored one there since the entries were last removed, and then it is the one that was
stored last.

The proof goes through a map of entries that is kept beside the files: every call does to the files what
it does to the map.

## Main definitions

* `Call`: a call of an operation.
* `after`, `afterAll`: the files after calls.
* `Stores`: a call stores an entry.
* `StoredSince`, `StoredLast`: what the calls have stored under a key and not removed.
* `recorded`: the map after a call.

## Main results

* `Holds.after`: a call does to the files what it does to the map.
* `exists_holds`: after any calls, the files hold a map of what was stored last.
* `getInto_afterAll`: reading finds what was stored last, and storing changes nothing if it fails.
-/

namespace Midend.Cache

open Files (FileTree wayOf)
open Files.FileTree (OnlyMakes)

/-! ### Calls -/

/-- A call of an operation on a cache. -/
inductive Call where
  /-- Stores an entry, on a device that refuses some steps. -/
  | put (k : Key) (e : Entry) (refuses : PutStep → Bool)
  /-- Reads an entry into `out`. -/
  | get (k : Key) (out : Entry)
  /-- Removes all entries. -/
  | dropAll

/-- The files after a call. -/
def after (c : Cache) (t : FileTree) : Call → FileTree
  | .put k e refuses => (c.putOn refuses t k e).2
  | .get _ _ => t
  | .dropAll => c.dropAll t

/-- The files after some calls. -/
def afterAll (c : Cache) (t : FileTree) (calls : List Call) : FileTree := calls.foldl c.after t

/-- The call `call`, made behind the calls `before`, stores the entry `e` under the key `k`. -/
def Stores (c : Cache) (t : FileTree) (before : List Call) (call : Call) (k : Key) (e : Entry) : Prop :=
  ∃ refuses, call = .put k e refuses ∧ (c.putOn refuses (c.afterAll t before) k e).1 = .ok ()

/-- A call has stored an entry under the key, and the entries were not removed since. -/
def StoredSince (c : Cache) (t : FileTree) (calls : List Call) (k : Key) : Prop :=
  ∃ before call later e, calls = before ++ call :: later ∧ c.Stores t before call k e ∧
    .dropAll ∉ later

/-- A call has stored the entry `e` under the key, the entries were not removed since, and no later call
has stored one there. -/
def StoredLast (c : Cache) (t : FileTree) (calls : List Call) (k : Key) (e : Entry) : Prop :=
  ∃ before call later, calls = before ++ call :: later ∧ c.Stores t before call k e ∧
    .dropAll ∉ later ∧ ∀ between call' rest e', later = between ++ call' :: rest →
      ¬ c.Stores t (before ++ call :: between) call' k e'

variable {c : Cache} {t : FileTree} {calls : List Call} {call : Call} {k : Key} {e : Entry}

theorem afterAll_concat (c : Cache) (t : FileTree) (calls : List Call) (call : Call) :
    c.afterAll t (calls ++ [call]) = c.after (c.afterAll t calls) call := by
  rw [afterAll, List.foldl_append]
  rfl

theorem stores_put_iff {j : Key} {e' : Entry} {refuses : PutStep → Bool} :
    c.Stores t calls (.put j e' refuses) k e ↔
      (c.putOn refuses (c.afterAll t calls) j e').1 = .ok () ∧ k = j ∧ e = e' := by
  constructor
  · rintro ⟨_, heq, hok⟩
    obtain ⟨rfl, rfl, rfl⟩ := Call.put.inj heq
    exact ⟨hok, rfl, rfl⟩
  · rintro ⟨hok, rfl, rfl⟩
    exact ⟨refuses, rfl, hok⟩

/-! ### The last call -/

/-- A list that ends in `x` is split either at its end or before. -/
theorem concat_eq_append_cons_iff {α : Type} {l before later : List α} {x y : α} :
    l ++ [x] = before ++ y :: later ↔
      before = l ∧ y = x ∧ later = [] ∨ ∃ rest, later = rest ++ [x] ∧ l = before ++ y :: rest := by
  constructor
  · intro h
    rcases List.eq_nil_or_concat later with rfl | ⟨rest, z, rfl⟩
    · obtain ⟨rfl, hx⟩ := List.append_inj' h rfl
      exact .inl ⟨rfl, (List.cons.inj hx).1.symm, rfl⟩
    · rw [List.concat_eq_append, ← List.cons_append, ← List.append_assoc] at h
      obtain ⟨rfl, hx⟩ := List.append_inj' h rfl
      obtain rfl := (List.cons.inj hx).1
      exact .inr ⟨rest, List.concat_eq_append, rfl⟩
  · rintro (⟨rfl, rfl, rfl⟩ | ⟨rest, rfl, rfl⟩)
    · rfl
    · rw [List.append_assoc, List.cons_append]

theorem storedSince_concat : c.StoredSince t (calls ++ [call]) k ↔
    (∃ e, c.Stores t calls call k e) ∨ call ≠ .dropAll ∧ c.StoredSince t calls k := by
  constructor
  · rintro ⟨before, call', later, e, heq, hstores, hkept⟩
    rcases concat_eq_append_cons_iff.mp heq with ⟨rfl, rfl, rfl⟩ | ⟨rest, rfl, rfl⟩
    · exact .inl ⟨e, hstores⟩
    · rw [List.mem_append, not_or, List.mem_singleton] at hkept
      exact .inr ⟨fun h => hkept.2 h.symm, before, call', rest, e, rfl, hstores, hkept.1⟩
  · rintro (⟨e, hstores⟩ | ⟨hne, before, call', rest, e, rfl, hstores, hkept⟩)
    · exact ⟨calls, call, [], e, rfl, hstores, List.not_mem_nil⟩
    · refine ⟨before, call', rest ++ [call], e, by simp, hstores, ?_⟩
      rw [List.mem_append, not_or, List.mem_singleton]
      exact ⟨hkept, hne.symm⟩

theorem storedLast_concat : c.StoredLast t (calls ++ [call]) k e ↔ c.Stores t calls call k e ∨
    call ≠ .dropAll ∧ (∀ e', ¬ c.Stores t calls call k e') ∧ c.StoredLast t calls k e := by
  constructor
  · rintro ⟨before, call', later, heq, hstores, hkept, hlast⟩
    rcases concat_eq_append_cons_iff.mp heq with ⟨rfl, rfl, rfl⟩ | ⟨rest, rfl, rfl⟩
    · exact .inl hstores
    · rw [List.mem_append, not_or, List.mem_singleton] at hkept
      -- A call in `rest` comes after `call'` in the longer list as well.
      refine .inr ⟨fun h => hkept.2 h.symm, fun e' => hlast rest call [] e' rfl,
        before, call', rest, rfl, hstores, hkept.1, fun between other rest' e' hrest => ?_⟩
      exact hlast between other (rest' ++ [call]) e' (by rw [hrest, List.append_assoc, List.cons_append])
  · rintro (hstores | ⟨hne, hnot, before, call', rest, rfl, hstores, hkept, hlast⟩)
    · refine ⟨calls, call, [], rfl, hstores, List.not_mem_nil, fun between other rest e' hnil => ?_⟩
      simp at hnil
    · refine ⟨before, call', rest ++ [call], by simp, hstores, ?_, fun between other rest' e' heq => ?_⟩
      · rw [List.mem_append, not_or, List.mem_singleton]
        exact ⟨hkept, hne.symm⟩
      · rcases concat_eq_append_cons_iff.mp heq with ⟨rfl, rfl, rfl⟩ | ⟨rest'', -, hrest⟩
        · exact hnot e'
        · exact hlast between other rest'' e' hrest

/-- A call that neither stores under the key nor removes the entries makes no difference. -/
theorem storedLast_concat_of_not (hne : call ≠ .dropAll) (hnot : ∀ e', ¬ c.Stores t calls call k e') :
    c.StoredLast t (calls ++ [call]) k e ↔ c.StoredLast t calls k e := by
  rw [storedLast_concat]
  exact ⟨fun h => (h.resolve_left (hnot e)).2.2, fun h => .inr ⟨hne, hnot, h⟩⟩

/-- If anything was stored, something was stored last. -/
theorem storedSince_iff : c.StoredSince t calls k ↔ ∃ e, c.StoredLast t calls k e := by
  induction calls using List.reverseRecOn with
  | nil =>
    refine iff_of_false ?_ ?_
    · rintro ⟨before, call, later, e, heq, -⟩
      simp at heq
    · rintro ⟨e, before, call, later, heq, -⟩
      simp at heq
  | append_singleton calls call ih =>
    rw [storedSince_concat]
    simp only [storedLast_concat]
    by_cases hstores : ∃ e, c.Stores t calls call k e
    · exact iff_of_true (.inl hstores) (hstores.imp fun _ h => .inl h)
    · rw [ih]
      constructor
      · rintro (hnow | ⟨hne, e, hlast⟩)
        · exact absurd hnow hstores
        · exact ⟨e, .inr ⟨hne, not_exists.mp hstores, hlast⟩⟩
      · rintro ⟨e, hnow | ⟨hne, -, hlast⟩⟩
        · exact .inl ⟨e, hnow⟩
        · exact .inr ⟨hne, e, hlast⟩

/-! ### The map beside the files -/

/-- The map after a call. -/
def recorded (c : Cache) (t : FileTree) (kept : Key → Option Entry) : Call → Key → Option Entry
  | .put k e refuses => if (c.putOn refuses t k e).1.isOk then keep kept k (stamped e) else kept
  | .get _ _ => kept
  | .dropAll => fun _ => none

/-- The entry of a call, if it has one, can be read as it was written. -/
def Call.Survives (call : Call) : Prop :=
  ∀ k e refuses, call = .put k e refuses → Entry.decode? (stamped e).encode = some (stamped e)

/-- A call does to the files what it does to the map. -/
theorem Holds.after {kept : Key → Option Entry} (h : c.Holds t kept) (hcall : call.Survives) :
    c.Holds (c.after t call) (c.recorded t kept call) := by
  cases call with
  | put k e refuses =>
    show c.Holds (c.putOn refuses t k e).2
      (if (c.putOn refuses t k e).1.isOk then keep kept k (stamped e) else kept)
    cases hput : c.putOn refuses t k e with
    | mk outcome t' =>
      cases outcome with
      | ok => exact h.putOn hput (hcall k e refuses rfl)
      | error err => exact h.onlyMakes (putOn_eq_error hput).2
  | get k out => exact h
  | dropAll => exact h.dropAll

/-- If the map has what was stored last before a call, it has so after it. -/
theorem recorded_eq_some_iff {kept : Key → Option Entry} {e' : Entry}
    (h : ∀ k e', kept k = some e' ↔ ∃ e, c.StoredLast t calls k e ∧ e' = stamped e) :
    c.recorded (c.afterAll t calls) kept call k = some e' ↔
      ∃ e, c.StoredLast t (calls ++ [call]) k e ∧ e' = stamped e := by
  have hsame : call ≠ .dropAll → (∀ e, ¬ c.Stores t calls call k e) →
      (kept k = some e' ↔ ∃ e, c.StoredLast t (calls ++ [call]) k e ∧ e' = stamped e) := fun hne hnot => by
    simp only [h, storedLast_concat_of_not hne hnot]
  cases call with
  | put j e₀ refuses =>
    rw [recorded]
    by_cases hok : (c.putOn refuses (c.afterAll t calls) j e₀).1 = .ok ()
    · have hstored : (c.putOn refuses (c.afterAll t calls) j e₀).1.isOk = true := by
        rw [hok]
        rfl
      rw [if_pos hstored, keep]
      split
      · next hkj =>
        -- The new entry is the one that was stored last.
        have hlast : ∀ e, c.StoredLast t (calls ++ [.put j e₀ refuses]) k e ↔ e = e₀ := by
          intro e
          rw [storedLast_concat, stores_put_iff]
          constructor
          · rintro (⟨-, -, rfl⟩ | ⟨-, hnot, -⟩)
            · rfl
            · exact absurd (stores_put_iff.mpr ⟨hok, hkj, rfl⟩) (hnot e₀)
          · rintro rfl
            exact .inl ⟨hok, hkj, rfl⟩
        simp [hlast, eq_comm]
      · next hkj =>
        refine hsame Call.noConfusion fun e hstores => hkj (stores_put_iff.mp hstores).2.1
    · have hfailed : ¬ (c.putOn refuses (c.afterAll t calls) j e₀).1.isOk = true := by
        intro htrue
        cases hout : (c.putOn refuses (c.afterAll t calls) j e₀).1 with
        | ok => exact hok hout
        | error err => simp [hout, Except.isOk, Except.toBool] at htrue
      rw [if_neg hfailed]
      exact hsame Call.noConfusion fun e hstores => hok (stores_put_iff.mp hstores).1
  | get j out =>
    refine hsame Call.noConfusion fun e hstores => ?_
    obtain ⟨_, heq, -⟩ := hstores
    cases heq
  | dropAll =>
    refine iff_of_false (by simp [recorded]) ?_
    rintro ⟨e, hlast, -⟩
    rcases storedLast_concat.mp hlast with ⟨_, heq, -⟩ | ⟨hne, -, -⟩
    · cases heq
    · exact hne rfl

/-- After any calls, the files hold a map of what was stored last. -/
theorem exists_holds (hempty : c.Empty t) (hcalls : ∀ call ∈ calls, call.Survives) :
    ∃ kept, c.Holds (c.afterAll t calls) kept ∧
      ∀ k e', kept k = some e' ↔ ∃ e, c.StoredLast t calls k e ∧ e' = stamped e := by
  -- What was stored last is decided by the last call, so the induction goes from the end.
  induction calls using List.reverseRecOn with
  | nil =>
    refine ⟨fun _ => none, hempty.holds, fun k e' => iff_of_false (by simp) ?_⟩
    rintro ⟨e, ⟨before, call, later, heq, -⟩, -⟩
    simp at heq
  | append_singleton calls call ih =>
    obtain ⟨kept, hholds, hkept⟩ := ih fun call' hcall' => hcalls call' (List.mem_append_left _ hcall')
    have hcall : call.Survives := hcalls call (List.mem_append_right _ (List.mem_singleton_self call))
    rw [afterAll_concat]
    exact ⟨_, hholds.after hcall, fun k e' => recorded_eq_some_iff hkept⟩

/-! ### Reading -/

theorem Holds.get_eq_some_iff {kept : Key → Option Entry} (h : c.Holds t kept) :
    c.get t k = .ok (some e) ↔ kept k = some e :=
  ⟨fun hget => (h.get hget).symm, h.get_of_some⟩

section GetInto

variable {out : Entry}

theorem getInto_eq_iff : c.getInto t k out = (.ok true, e) ↔ c.get t k = .ok (some e) := by
  rw [getInto]
  cases c.get t k with
  | error err => simp
  | ok found => cases found <;> simp

theorem getInto_fst_iff : (c.getInto t k out).1 = .ok true ↔ ∃ e, c.get t k = .ok (some e) := by
  rw [getInto]
  cases c.get t k with
  | error err => simp
  | ok found => cases found <;> simp

theorem getInto_snd (h : (c.getInto t k out).1 ≠ .ok true) : (c.getInto t k out).2 = out := by
  rw [getInto] at h ⊢
  cases hget : c.get t k with
  | error err => rfl
  | ok found =>
    cases found with
    | none => rfl
    | some e => exact absurd (by rw [hget]) h

end GetInto

/-- **A cache is a map.**  Let any calls store, read and remove entries of a cache that was empty, on a
device that may refuse any step of storing, and let the entries that are stored be readable as they are
written.  Then reading under a key reports a hit just if a call has stored an entry there since the entries
were last removed, gives the entry of the last such call with the current version, and leaves what it was to
fill as it was if it reports no hit.  And if storing fails, all that it has done is to make directories for
the entries: no file is changed, removed or left behind, and reading finds under all keys what it found
before. -/
theorem getInto_afterAll (c : Cache) (t : FileTree) (hempty : c.Empty t) (calls : List Call)
    (hcalls : ∀ k e refuses, Call.put k e refuses ∈ calls →
      Entry.decode? (stamped e).encode = some (stamped e)) :
    (∀ k out,
      ((c.getInto (c.afterAll t calls) k out).1 = .ok true ↔ c.StoredSince t calls k) ∧
      (∀ e', c.getInto (c.afterAll t calls) k out = (.ok true, e') ↔
        ∃ e, c.StoredLast t calls k e ∧ e' = stamped e) ∧
      ((c.getInto (c.afterAll t calls) k out).1 ≠ .ok true →
        (c.getInto (c.afterAll t calls) k out).2 = out)) ∧
    ∀ k e refuses err t', c.putOn refuses (c.afterAll t calls) k e = (.error err, t') →
      OnlyMakes (wayOf c.entriesDir) (c.afterAll t calls) t' ∧
      (∀ place b, t'.get? place = some (.file b) ↔ (c.afterAll t calls).get? place = some (.file b)) ∧
      ∀ j out e', c.getInto t' j out = (.ok true, e') ↔
        c.getInto (c.afterAll t calls) j out = (.ok true, e') := by
  have hsurvive : ∀ call ∈ calls, call.Survives := by
    rintro call hcall k e refuses rfl
    exact hcalls k e refuses hcall
  obtain ⟨kept, hholds, hkept⟩ := exists_holds hempty hsurvive
  refine ⟨fun k out => ⟨?_, fun e' => ?_, getInto_snd⟩, fun k e refuses err t' hput => ?_⟩
  · rw [getInto_fst_iff, storedSince_iff]
    simp only [hholds.get_eq_some_iff, hkept]
    constructor
    · rintro ⟨_, e, hlast, -⟩
      exact ⟨e, hlast⟩
    · rintro ⟨e, hlast⟩
      exact ⟨_, e, hlast, rfl⟩
  · rw [getInto_eq_iff, hholds.get_eq_some_iff, hkept]
  · -- Making directories changes neither the files nor the map that they hold.
    have hmakes := (putOn_eq_error hput).2
    refine ⟨hmakes, hmakes.file_iff, fun j out e' => ?_⟩
    rw [getInto_eq_iff, getInto_eq_iff, (hholds.onlyMakes hmakes).get_eq_some_iff, hholds.get_eq_some_iff]

/-- An entry is stored, removed, stored again with another content, and not replaced by a third one, since
the device refuses the last step. -/
def retrying : List Call :=
  [.put ⟨[1]⟩ { name := [10] } fun _ => false, .dropAll, .put ⟨[1]⟩ { name := [20] } fun _ => false,
    .get ⟨[2]⟩ {}, .put ⟨[1]⟩ { name := [30] } (· == .rename)]

/-- The second entry is found, and the third one has left no trace. -/
theorem getInto_afterAll_retrying :
    let c : Cache := ⟨"c"⟩
    let t := c.afterAll {} (retrying.take 4)
    c.Empty {} ∧
    (∀ k e refuses, Call.put k e refuses ∈ retrying →
      Entry.decode? (stamped e).encode = some (stamped e)) ∧
    c.getInto (c.afterAll {} retrying) ⟨[1]⟩ {} = (.ok true, stamped { name := [20] }) ∧
    c.getInto (c.afterAll {} retrying) ⟨[2]⟩ { name := [40] } = (.ok false, { name := [40] }) ∧
    ∃ err t', c.putOn (· == .rename) t ⟨[1]⟩ { name := [30] } = (.error err, t') ∧
      ∀ place b, t'.get? place = some (.file b) ↔ t.get? place = some (.file b) := by
  intro c t
  have hempty : c.Empty {} := empty_of_size (by decide)
  have hsurvive : ∀ k e refuses, Call.put k e refuses ∈ retrying →
      Entry.decode? (stamped e).encode = some (stamped e) := by
    intro k e refuses hmem
    simp only [retrying, List.mem_cons, List.not_mem_nil, Call.put.injEq, reduceCtorEq, false_or,
      or_false] at hmem
    rcases hmem with ⟨-, rfl, -⟩ | ⟨-, rfl, -⟩ | ⟨-, rfl, -⟩ <;> exact decode?_stamped (by decide)
  have hrefused : (c.putOn (· == .rename) t ⟨[1]⟩ { name := [30] }).1 ≠ .ok () := by decide +kernel
  obtain ⟨hreads, -⟩ := getInto_afterAll c {} hempty retrying hsurvive
  obtain ⟨-, hfails⟩ := getInto_afterAll c {} hempty (retrying.take 4)
    fun k e refuses hmem => hsurvive k e refuses (List.mem_of_mem_take hmem)
  refine ⟨hempty, hsurvive, ?_, ?_, ?_⟩
  · refine ((hreads ⟨[1]⟩ {}).2.1 _).mpr ⟨{ name := [20] }, ?_, rfl⟩
    have hstores : c.Stores {} (retrying.take 2) (.put ⟨[1]⟩ { name := [20] } fun _ => false) ⟨[1]⟩
        { name := [20] } := stores_put_iff.mpr ⟨by decide +kernel, rfl, rfl⟩
    have hthird : c.StoredLast {} (retrying.take 3) ⟨[1]⟩ { name := [20] } :=
      storedLast_concat.mpr (.inl hstores)
    have hfourth : c.StoredLast {} (retrying.take 3 ++ [.get ⟨[2]⟩ {}]) ⟨[1]⟩ { name := [20] } := by
      refine (storedLast_concat_of_not Call.noConfusion ?_).mpr hthird
      rintro e' ⟨_, heq, -⟩
      cases heq
    have hlast : c.StoredLast {} (retrying.take 4 ++ [.put ⟨[1]⟩ { name := [30] } (· == .rename)]) ⟨[1]⟩
        { name := [20] } := by
      refine (storedLast_concat_of_not Call.noConfusion fun e' hstores' => ?_).mpr hfourth
      exact hrefused (stores_put_iff.mp hstores').1
    exact hlast
  · have hmiss : (c.getInto (c.afterAll {} retrying) ⟨[2]⟩ { name := [40] }).1 = .ok false := by
      decide +kernel
    exact Prod.ext hmiss ((hreads ⟨[2]⟩ { name := [40] }).2.2 (by rw [hmiss]; simp))
  · cases hput : c.putOn (· == .rename) t ⟨[1]⟩ { name := [30] } with
    | mk outcome t' =>
      cases outcome with
      | ok => exact absurd (congrArg Prod.fst hput) hrefused
      | error err => exact ⟨err, t', rfl, (hfails _ _ _ err t' hput).2.1⟩

end Midend.Cache
