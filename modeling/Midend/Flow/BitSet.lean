/-!
# Sets as bit vectors

A set of numbers below a bound, one bit for each.  It can grow only as often as it has bits that
are not set.

## Main definitions

* `BitSet`: the sets, with membership, union, difference and inclusion.
* `BitSet.room`: the number of elements a set lacks.

## Main results

* `BitSet.room_lt`: a set that includes another one and differs from it lacks fewer elements.
-/

namespace Midend.Flow

/-- A set of numbers below `n`. -/
structure BitSet (n : Nat) where
  /-- One bit for each number. -/
  bits : BitVec n
  deriving DecidableEq, Repr

namespace BitSet

variable {n : Nat}

/-- The empty set. -/
def empty : BitSet n := ⟨0#n⟩

instance : Inhabited (BitSet n) := ⟨empty⟩

/-- Is the number an element? -/
def has (s : BitSet n) (i : Nat) : Bool := s.bits.getLsbD i

instance : Membership Nat (BitSet n) := ⟨fun s i => s.has i = true⟩

/-- The set with one more element. -/
def insert (s : BitSet n) (i : Nat) : BitSet n := ⟨s.bits ||| BitVec.twoPow n i⟩

/-- The set of the elements of a list. -/
def ofList (l : List Nat) : BitSet n := l.foldl insert empty

/-- The elements of either set. -/
def union (s t : BitSet n) : BitSet n := ⟨s.bits ||| t.bits⟩

/-- The elements of the first set that are not in the second. -/
def diff (s t : BitSet n) : BitSet n := ⟨s.bits &&& ~~~t.bits⟩

/-- Is every element of the first set in the second? -/
def subset (s t : BitSet n) : Bool := s.bits &&& ~~~t.bits = 0#n

/-- The elements in increasing order. -/
def toList (s : BitSet n) : List Nat := (List.range n).filter s.has

/-- How many numbers below the bound are not in the set. -/
def room (s : BitSet n) : Nat := (List.range n).countP fun i => !s.has i

@[simp] theorem has_empty (i : Nat) : (empty : BitSet n).has i = false := by
  simp [has, empty]

@[simp] theorem has_union (s t : BitSet n) (i : Nat) :
    (s.union t).has i = (s.has i || t.has i) := by
  simp [has, union]

theorem has_insert (s : BitSet n) (i j : Nat) :
    (s.insert i).has j = (s.has j || (decide (i = j) && decide (j < n))) := by
  simp only [has, insert, BitVec.getLsbD_or, BitVec.getLsbD_twoPow]
  grind

theorem lt_of_has {s : BitSet n} {i : Nat} (h : s.has i = true) : i < n :=
  BitVec.lt_of_getLsbD h

@[simp] theorem has_diff (s t : BitSet n) (i : Nat) :
    (s.diff t).has i = (s.has i && !t.has i) := by
  by_cases hi : i < n
  · simp [has, diff, hi]
  · have hs : s.bits.getLsbD i = false := BitVec.getLsbD_of_ge _ _ (Nat.le_of_not_lt hi)
    simp [has, diff, hs]

theorem ext_has {s t : BitSet n} (h : ∀ i, s.has i = t.has i) : s = t := by
  have : s.bits = t.bits := BitVec.eq_of_getLsbD_eq fun i _ => h i
  cases s
  cases t
  simp_all

theorem subset_iff {s t : BitSet n} :
    s.subset t = true ↔ ∀ i, s.has i = true → t.has i = true := by
  have hbits : s.subset t = true ↔ s.diff t = empty := by
    simp [subset, diff, empty]
  rw [hbits]
  constructor
  · intro h i hs
    have := congrArg (·.has i) h
    simpa [hs] using this
  · intro h
    refine ext_has fun i => ?_
    have := h i
    cases hs : s.has i <;> simp_all

theorem room_lt {new old : BitSet n} (hne : new ≠ old) (hsub : old.subset new = true) :
    room new < room old := by
  have hle : ∀ i, (!new.has i) = true → (!old.has i) = true := by
    intro i hi
    have := subset_iff.mp hsub i
    cases ho : old.has i <;> simp_all
  obtain ⟨i, hi⟩ : ∃ i, new.has i ≠ old.has i := by
    refine Classical.byContradiction fun hno => hne (ext_has fun i => ?_)
    exact Classical.byContradiction fun hi => hno ⟨i, hi⟩
  have hnew : new.has i = true := by
    have := subset_iff.mp hsub i
    cases hn : new.has i <;> cases ho : old.has i <;> simp_all
  have hold : old.has i = false := by
    cases ho : old.has i <;> simp_all
  unfold room
  have hmem : i ∈ List.range n := List.mem_range.mpr (lt_of_has hnew)
  have hsplit := List.append_of_mem hmem
  obtain ⟨before, after, hrange⟩ := hsplit
  rw [hrange, List.countP_append, List.countP_append, List.countP_cons, List.countP_cons]
  have h₁ := List.countP_mono_left (l := before) fun x _ => hle x
  have h₂ := List.countP_mono_left (l := after) fun x _ => hle x
  simp only [hnew, hold, Bool.not_true, Bool.not_false]
  simp only [Bool.false_eq_true, if_false, if_true]
  omega

end BitSet

end Midend.Flow
