import Mathlib.Data.List.Forall2
import Midend.Scope.Document

/-!
# Which trees are described

A record is sound by itself: a declaration or reference has a name and nothing inside, and anything else is
of one of three kinds.  A description is turned into a tree just if all of its records are sound.  Otherwise
the first record that is not is named, where those inside a record come before it, one after the other, and
nobody looks inside declarations and references.

Paths alone tell which of two records comes first, so that what is named can be told without going through
the records.

## Main definitions

* `Description.Sound`, `Description.fault?`: what is wrong with a record by itself.
* `Description.Describes`: the tree of a description.
* `Description.Visits`: the records that are looked at.
* `Earlier`: the order in which they are.
* `Description.FirstFault`: the first record that is not sound.

## Main results

* `toTrees_outcome`: what the records inside a record come to.
* `Description.toTreeAt_outcome`: what a record comes to.
* `Description.FirstFault.unique`: there is only one first fault.
* `toTree_exact`: a description is turned into its tree, or its first fault is named.
-/

namespace Midend.Scope

namespace Description

/-- What is inside a record. -/
def children : Description → List Description
  | .mk _ _ _ children => children

/-- The record declares a name or refers to one. -/
def IsLeaf : Description → Prop
  | .mk kind _ _ _ => kind = "decl" ∨ kind = "ref"

/-- There is nothing wrong with the record by itself. -/
def Sound : Description → Prop
  | .mk kind name _ children =>
    (kind = "decl" ∨ kind = "ref") ∧ name ≠ "" ∧ children = [] ∨
      kind = "block" ∨ kind = "func" ∨ kind = "generic"

/-- What is wrong with the record by itself. -/
def fault? : Description → Option DescriptionFault
  | .mk kind name _ children =>
    if kind = "decl" ∨ kind = "ref" then
      if name = "" then some (.nameless kind)
      else if children.isEmpty then none
      else some (.notALeaf kind)
    else if kind = "block" ∨ kind = "func" ∨ kind = "generic" then none
    else some (.unknownKind kind)

/-- The record at the end of a path. -/
def at? : Description → List Nat → Option Description
  | d, [] => some d
  | d, i :: p => d.children[i]?.bind fun c => c.at? p

/-- All records are sound. -/
def AllSound (d : Description) : Prop := ∀ p e, d.at? p = some e → e.Sound

/-- The description is one of the tree: both have the same shape, and what is inside a function is a block
that is its body. -/
inductive Describes : Description → Tree → Prop
  /-- A declaration. -/
  | decl {name : String} {params : List String} (named : name ≠ "") :
    Describes (.mk "decl" name params []) (.decl name)
  /-- A reference. -/
  | ref {name : String} {params : List String} (named : name ≠ "") :
    Describes (.mk "ref" name params []) (.ref name)
  /-- A block. -/
  | block {name : String} {params : List String} {children : List Description} {parts : List Tree}
    (inside : List.Forall₂ Describes children parts) :
    Describes (.mk "block" name params children) (.block parts)
  /-- A function. -/
  | func {name : String} {params : List String} {children : List Description} {parts : List Tree}
    (inside : List.Forall₂ Describes children parts) :
    Describes (.mk "func" name params children) (.func params (.block parts))
  /-- Anything else. -/
  | generic {name : String} {params : List String} {children : List Description} {parts : List Tree}
    (inside : List.Forall₂ Describes children parts) :
    Describes (.mk "generic" name params children) (.generic parts)

/-- The record at the end of the path is looked at: there is no declaration or reference on the way. -/
inductive Visits : Description → List Nat → Description → Prop
  /-- The record itself is. -/
  | here {d : Description} : Visits d [] d
  /-- So are those inside, unless it is a declaration or reference. -/
  | inside {d c e : Description} {i : Nat} {p : List Nat} (opens : ¬ d.IsLeaf)
    (child : d.children[i]? = some c) (visits : Visits c p e) : Visits d (i :: p) e

end Description

/-- The record at the end of the first path comes before the one at the end of the second: it is inside, or
it is inside an earlier one where the paths part. -/
inductive Earlier : List Nat → List Nat → Prop
  /-- What is inside comes first. -/
  | inside {i : Nat} {p : List Nat} : Earlier (i :: p) []
  /-- The records inside come one after the other. -/
  | parting {i j : Nat} {p q : List Nat} (lt : i < j) : Earlier (i :: p) (j :: q)
  /-- The way that both paths have in common does not matter. -/
  | along {i : Nat} {p q : List Nat} (earlier : Earlier p q) : Earlier (i :: p) (i :: q)

/-- The first record that is not sound, and what is wrong with it. -/
structure Description.FirstFault (d : Description) (err : DescriptionError) : Prop where
  /-- The record is looked at, and that is wrong with it. -/
  faulty : ∃ e, d.Visits err.path e ∧ e.fault? = some err.fault
  /-- All records that are looked at before are sound. -/
  first : ∀ p e, d.Visits p e → Earlier p err.path → e.Sound

/-- Of two paths, one is earlier. -/
theorem earlier_trichotomy (p q : List Nat) : Earlier p q ∨ p = q ∨ Earlier q p := by
  induction p generalizing q with
  | nil =>
    cases q with
    | nil => exact .inr (.inl rfl)
    | cons j q => exact .inr (.inr .inside)
  | cons i p ih =>
    cases q with
    | nil => exact .inl .inside
    | cons j q =>
      rcases Nat.lt_trichotomy i j with hlt | rfl | hgt
      · exact .inl (.parting hlt)
      · rcases ih q with hearlier | rfl | hlater
        · exact .inl (.along hearlier)
        · exact .inr (.inl rfl)
        · exact .inr (.inr (.along hlater))
      · exact .inr (.inr (.parting hgt))

/-! ### Records -/

namespace Description

variable {d c e e' : Description} {t : Tree} {p : List Nat} {i : Nat}

/-- A record is sound just if there is nothing wrong with it. -/
theorem sound_iff_fault? : d.Sound ↔ d.fault? = none := by
  obtain ⟨kind, name, params, children⟩ := d
  simp only [Sound, fault?]
  by_cases hleaf : kind = "decl" ∨ kind = "ref"
  · have hkinds : ¬ (kind = "block" ∨ kind = "func" ∨ kind = "generic") := by
      rcases hleaf with rfl | rfl <;> decide
    rw [if_pos hleaf]
    by_cases hname : name = ""
    · simp [hname, hkinds]
    · cases children <;> simp [hname, hleaf, hkinds]
  · rw [if_neg hleaf]
    by_cases hkinds : kind = "block" ∨ kind = "func" ∨ kind = "generic"
    · simp [hkinds]
    · simp [hleaf, hkinds]

theorem not_sound_of_fault? {f : DescriptionFault} (h : d.fault? = some f) : ¬ d.Sound := by
  intro hsound
  rw [sound_iff_fault?.mp hsound] at h
  cases h

theorem at?_cons (d : Description) (i : Nat) (p : List Nat) :
    d.at? (i :: p) = d.children[i]?.bind fun c => c.at? p := rfl

/-- What is looked at is the record at the end of the path. -/
theorem Visits.at?_eq (h : d.Visits p e) : d.at? p = some e := by
  induction h with
  | here => rfl
  | inside opens child visits ih =>
    rw [at?_cons, child]
    exact ih

theorem AllSound.sound (h : d.AllSound) (hvisits : d.Visits p e) : e.Sound := h p e hvisits.at?_eq

/-- All records are sound if the first one is and all inside are. -/
theorem allSound_of_children (hd : d.Sound) (h : ∀ c ∈ d.children, c.AllSound) : d.AllSound := by
  intro p e he
  cases p with
  | nil =>
    obtain rfl := Option.some.inj he
    exact hd
  | cons i p =>
    rw [at?_cons] at he
    obtain ⟨c, hc, hat⟩ := Option.bind_eq_some_iff.mp he
    exact h c (List.mem_of_getElem? hc) p e hat

/-- What holds of a record as soon as it holds of those inside holds of all records. -/
theorem children_induction {P : Description → Prop} (h : ∀ d, (∀ c ∈ d.children, P c) → P d)
    (d : Description) : P d :=
  h d fun c _hc => children_induction h c
termination_by sizeOf d
decreasing_by
  obtain ⟨kind, name, params, children⟩ := d
  have := List.sizeOf_lt_of_mem (show c ∈ children from _hc)
  simp only [mk.sizeOf_spec]
  omega

/-! ### Faults -/

/-- A description with a fault is not sound altogether. -/
theorem FirstFault.not_allSound {err : DescriptionError} (h : d.FirstFault err) : ¬ d.AllSound := by
  intro hsound
  obtain ⟨e, hvisits, hfault⟩ := h.faulty
  exact not_sound_of_fault? hfault (hsound.sound hvisits)

/-- There is only one first fault. -/
theorem FirstFault.unique {err err' : DescriptionError} (h : d.FirstFault err) (h' : d.FirstFault err') :
    err = err' := by
  obtain ⟨e, hvisits, hfault⟩ := h.faulty
  obtain ⟨e', hvisits', hfault'⟩ := h'.faulty
  rcases earlier_trichotomy err.path err'.path with hearlier | hpath | hlater
  · exact absurd (h'.first _ _ hvisits hearlier) (not_sound_of_fault? hfault)
  · obtain ⟨path, fault⟩ := err
    obtain ⟨path', fault'⟩ := err'
    obtain rfl : path = path' := hpath
    obtain rfl : e = e' := Option.some.inj (hvisits.at?_eq.symm.trans hvisits'.at?_eq)
    obtain rfl : fault = fault' := Option.some.inj (hfault.symm.trans hfault')
    rfl
  · exact absurd (h.first _ _ hvisits' hlater) (not_sound_of_fault? hfault')

/-- The fault is that of the record itself, if nothing is wrong inside. -/
theorem firstFault_here {f : DescriptionFault} (hf : d.fault? = some f)
    (h : ¬ d.IsLeaf → ∀ c ∈ d.children, c.AllSound) : d.FirstFault ⟨[], f⟩ := by
  refine ⟨⟨d, .here, hf⟩, ?_⟩
  intro p e hvisits hearlier
  cases hvisits with
  | here => cases hearlier
  | inside opens child visits => exact (h opens _ (List.mem_of_getElem? child)).sound visits

/-- The fault is the first one inside a record that comes after sound ones. -/
theorem FirstFault.inside {f : DescriptionFault} (h : c.FirstFault ⟨p, f⟩) (hopens : ¬ d.IsLeaf)
    (hc : d.children[i]? = some c)
    (hbefore : ∀ j < i, ∀ b, d.children[j]? = some b → b.AllSound) : d.FirstFault ⟨i :: p, f⟩ := by
  obtain ⟨e, hvisits, hfault⟩ := h.faulty
  refine ⟨⟨e, .inside hopens hc hvisits, hfault⟩, ?_⟩
  intro q e' hvisits' hearlier
  cases hvisits' with
  | here => cases hearlier
  | inside opens child visits =>
    cases hearlier with
    | parting lt => exact (hbefore _ lt _ child).sound visits
    | along earlier =>
      obtain rfl := Option.some.inj (hc.symm.trans child)
      exact h.first _ _ visits earlier

/-! ### Turning records into trees -/

variable {path : List Nat} {kind name : String} {params : List String} {children : List Description}

theorem toTreeAt_of_leaf (h : kind = "decl" ∨ kind = "ref") :
    toTreeAt path (.mk kind name params children) = leafTree path kind name children.isEmpty := by
  rw [toTreeAt, if_pos (by simpa using h)]

theorem toTreeAt_of_composite (h : ¬ (kind = "decl" ∨ kind = "ref")) :
    toTreeAt path (.mk kind name params children) =
      (toTrees path 0 children).bind (compositeTree path kind params) := by
  rw [toTreeAt, if_neg (by simpa using h)]
  rfl

/-- A record at the end of a path is turned into its tree, and all records are sound; or the first fault is
named, by the whole path to it. -/
def Outcome (d : Description) (path : List Nat) : Prop :=
  (∃ t, d.toTreeAt path = .ok t ∧ d.Describes t ∧ d.AllSound) ∨
    ∃ p f, d.toTreeAt path = .error ⟨path ++ p, f⟩ ∧ d.FirstFault ⟨p, f⟩

/-- Records one after the other, the first with the number `k`, are turned into trees up to the first one
that has a fault. -/
theorem toTrees_outcome (h : ∀ c ∈ children, ∀ path, c.Outcome path) (path : List Nat) (k : Nat) :
    (∃ parts, toTrees path k children = .ok parts ∧ List.Forall₂ Describes children parts ∧
      ∀ c ∈ children, c.AllSound) ∨
    ∃ i c p f, children[i]? = some c ∧ toTrees path k children = .error ⟨path ++ (k + i) :: p, f⟩ ∧
      c.FirstFault ⟨p, f⟩ ∧ ∀ j < i, ∀ b, children[j]? = some b → b.AllSound := by
  induction children generalizing k with
  | nil => exact .inl ⟨[], rfl, .nil, fun c hc => absurd hc List.not_mem_nil⟩
  | cons d rest ih =>
    rw [List.forall_mem_cons] at h
    rcases h.1 (path ++ [k]) with ⟨t, hd, hdescribes, hsound⟩ | ⟨p, f, hd, hfault⟩
    · rcases ih h.2 (k + 1) with ⟨ts, hrest, hall, hsounds⟩ | ⟨i, c, p, f, hc, hrest, hfault, hbefore⟩
      · refine .inl ⟨t :: ts, ?_, .cons hdescribes hall, List.forall_mem_cons.mpr ⟨hsound, hsounds⟩⟩
        rw [toTrees, hd, hrest]
        rfl
      · refine .inr ⟨i + 1, c, p, f, hc, ?_, hfault, ?_⟩
        · rw [toTrees, hd, hrest, Nat.add_assoc, Nat.add_comm 1 i]
          rfl
        · intro j hj b hb
          cases j with
          | zero =>
            obtain rfl := Option.some.inj hb
            exact hsound
          | succ j => exact hbefore j (Nat.lt_of_succ_lt_succ hj) b hb
    · refine .inr ⟨0, d, p, f, rfl, ?_, hfault, fun j hj => absurd hj (Nat.not_lt_zero j)⟩
      rw [toTrees, hd, List.append_assoc]
      rfl

/-- A declaration or reference. -/
theorem leaf_outcome (h : kind = "decl" ∨ kind = "ref") :
    Outcome (.mk kind name params children) path := by
  unfold Outcome
  rw [toTreeAt_of_leaf h, leafTree]
  have hhere : ∀ {f}, fault? (.mk kind name params children) = some f →
      FirstFault (.mk kind name params children) ⟨[], f⟩ := fun hf =>
    firstFault_here hf fun hopens => absurd h hopens
  by_cases hname : name = ""
  · refine .inr ⟨[], .nameless kind, ?_, hhere ?_⟩
    · rw [if_pos hname, List.append_nil]
    · rw [fault?, if_pos h, if_pos hname]
  · rw [if_neg hname]
    cases children with
    | cons c rest =>
      refine .inr ⟨[], .notALeaf kind, ?_, hhere ?_⟩
      · rw [List.append_nil]
        rfl
      · rw [fault?, if_pos h, if_neg hname]
        rfl
    | nil =>
      have hsound : AllSound (.mk kind name params []) :=
        allSound_of_children (.inl ⟨h, hname, rfl⟩) fun c hc => absurd hc List.not_mem_nil
      rcases h with rfl | rfl
      · exact .inl ⟨.decl name, rfl, .decl hname, hsound⟩
      · exact .inl ⟨.ref name, rfl, .ref hname, hsound⟩

/-- A record that has others inside. -/
theorem composite_outcome (h : ¬ (kind = "decl" ∨ kind = "ref"))
    (ih : ∀ c ∈ children, ∀ path, c.Outcome path) : Outcome (.mk kind name params children) path := by
  unfold Outcome
  rw [toTreeAt_of_composite h]
  rcases toTrees_outcome ih path 0 with
    ⟨parts, hparts, hall, hsounds⟩ | ⟨i, c, p, f, hc, hparts, hfault, hbefore⟩
  · rw [hparts]
    by_cases hkinds : kind = "block" ∨ kind = "func" ∨ kind = "generic"
    · have hsound : AllSound (.mk kind name params children) :=
        allSound_of_children (.inr hkinds) hsounds
      rcases hkinds with rfl | rfl | rfl
      · exact .inl ⟨.block parts, rfl, .block hall, hsound⟩
      · exact .inl ⟨.func params (.block parts), rfl, .func hall, hsound⟩
      · exact .inl ⟨.generic parts, rfl, .generic hall, hsound⟩
    · refine .inr ⟨[], .unknownKind kind, ?_, firstFault_here ?_ fun _ => hsounds⟩
      · rw [not_or, not_or] at hkinds
        show compositeTree path kind params parts = _
        rw [compositeTree, if_neg hkinds.1, if_neg hkinds.2.1, if_neg hkinds.2.2, List.append_nil]
      · rw [fault?, if_neg h, if_neg hkinds]
  · refine .inr ⟨i :: p, f, ?_, hfault.inside h hc hbefore⟩
    rw [hparts, Nat.zero_add]
    rfl

/-- **What a record comes to**, wherever it is. -/
theorem toTreeAt_outcome (d : Description) : ∀ path, d.Outcome path := by
  induction d using children_induction with
  | h d ih =>
    intro path
    obtain ⟨kind, name, params, children⟩ := d
    by_cases hleaf : kind = "decl" ∨ kind = "ref"
    · exact leaf_outcome hleaf
    · exact composite_outcome hleaf ih

/-- The trees that are described are those that come out, if that holds of each of the records. -/
theorem toTrees_of_describes {parts : List Tree} (hall : List.Forall₂ Describes children parts)
    (h : ∀ c ∈ children, ∀ t, c.Describes t → ∀ path, c.toTreeAt path = .ok t) (path : List Nat) (k : Nat) :
    toTrees path k children = .ok parts := by
  induction hall generalizing k with
  | nil => rfl
  | cons hdescribes hall ih =>
    rw [List.forall_mem_cons] at h
    rw [toTrees, h.1 _ hdescribes, ih h.2]
    rfl

/-- The tree that is described is the one that comes out. -/
theorem toTreeAt_of_describes (d : Description) :
    ∀ t, d.Describes t → ∀ path, d.toTreeAt path = .ok t := by
  induction d using children_induction with
  | h d ih =>
    intro t h path
    cases h with
    | decl named =>
      rw [toTreeAt_of_leaf (.inl rfl), leafTree, if_neg named]
      rfl
    | ref named =>
      rw [toTreeAt_of_leaf (.inr rfl), leafTree, if_neg named]
      rfl
    | block inside =>
      rw [toTreeAt_of_composite (by decide), toTrees_of_describes inside ih]
      rfl
    | func inside =>
      rw [toTreeAt_of_composite (by decide), toTrees_of_describes inside ih]
      rfl
    | generic inside =>
      rw [toTreeAt_of_composite (by decide), toTrees_of_describes inside ih]
      rfl

/-- There is a tree just if all records are sound. -/
theorem exists_toTree_iff : (∃ t, d.toTree = .ok t) ↔ d.AllSound := by
  rcases d.toTreeAt_outcome [] with ⟨t, htree, -, hsound⟩ | ⟨p, f, herror, hfault⟩
  · exact ⟨fun _ => hsound, fun _ => ⟨t, htree⟩⟩
  · constructor
    · rintro ⟨t, htree⟩
      cases herror.symm.trans htree
    · intro hsound
      exact absurd hsound hfault.not_allSound

/-- The tree is the one that is described. -/
theorem toTree_eq_ok_iff : d.toTree = .ok t ↔ d.Describes t := by
  constructor
  · intro h
    rcases d.toTreeAt_outcome [] with ⟨t', htree, hdescribes, -⟩ | ⟨p, f, herror, -⟩
    · obtain rfl := Except.ok.inj (htree.symm.trans h)
      exact hdescribes
    · cases herror.symm.trans h
  · intro h
    exact toTreeAt_of_describes d t h []

/-- The error is the first fault. -/
theorem toTree_eq_error_iff {err : DescriptionError} : d.toTree = .error err ↔ d.FirstFault err := by
  rcases d.toTreeAt_outcome [] with ⟨t, htree, -, hsound⟩ | ⟨p, f, herror, hfault⟩
  · constructor
    · intro h
      cases htree.symm.trans h
    · intro h
      exact absurd hsound h.not_allSound
  · constructor
    · intro h
      obtain rfl := Except.error.inj (herror.symm.trans h)
      exact hfault
    · intro h
      obtain rfl := hfault.unique h
      exact herror

end Description

/-! ### Wording -/

/-- A path in words: the steps after each other. -/
theorem pathText_eq (path : List Nat) :
    pathText path = "root" ++ String.join (path.map fun i => s!".children[{i}]") := by
  have hfold : ∀ s : String, path.foldl (fun s i => s!"{s}.children[{i}]") s =
      s ++ String.join (path.map fun i => s!".children[{i}]") := by
    induction path with
    | nil =>
      intro s
      rw [List.map_nil, String.join_nil, String.append_empty]
      rfl
    | cons i path ih =>
      intro s
      rw [List.foldl_cons, ih, List.map_cons, String.join_cons]
      simp only [String.append_assoc]
      rfl
  exact hfold "root"

/-- The text of an error has the path to the record that is wrong. -/
theorem message_description (err : DescriptionError) : (TreeError.description err).message =
    "invalid tree: root" ++ String.join (err.path.map fun i => s!".children[{i}]") ++ ": " ++
      err.fault.message := by
  have hmessage : (TreeError.description err).message =
      "invalid tree: " ++ (pathText err.path ++ ": " ++ err.fault.message) := rfl
  have hroot : "invalid tree: root" = "invalid tree: " ++ "root" := rfl
  rw [hmessage, pathText_eq, hroot]
  simp only [String.append_assoc]

/-- **A description is turned into its tree, or its first fault is named.**  There is a tree just if every
record at the end of any path is sound: a declaration or reference with a name and nothing inside, or a
block, a function or anything else of the generic kind.  It is the tree of the same shape, in which what is
inside a function is one block.  Otherwise the first fault comes out: that of a record that is not inside a
declaration or reference, such that all others of these that are inside it or come before it are sound.  The
text of the error has the path to the record. -/
theorem toTree_exact (d : Description) :
    ((∃ t, d.toTree = .ok t) ↔ d.AllSound) ∧ (∀ t, d.toTree = .ok t ↔ d.Describes t) ∧
    (∀ err, d.toTree = .error err ↔ d.FirstFault err) ∧
    ∀ err : DescriptionError, (TreeError.description err).message =
      "invalid tree: root" ++ String.join (err.path.map fun i => s!".children[{i}]") ++ ": " ++
        err.fault.message :=
  ⟨Description.exists_toTree_iff, fun _ => Description.toTree_eq_ok_iff,
    fun _ => Description.toTree_eq_error_iff, message_description⟩

/-- Of four faults, the one inside the record of no kind comes first; that inside the declaration does not
count. -/
example : Description.toTree (.mk "block" "" [] [
    .mk "loop" "" [] [.mk "decl" "x" [] [.mk "ref" "" [] []]], .mk "ref" "" [] []]) =
      .error ⟨[0, 0], .notALeaf "decl"⟩ := by
  rfl

end Midend.Scope
