/-!
# Tables

A table is a growing array in which every index can be read: a cell that was never written
holds the default value.  Objects that refer to each other by number are kept in tables, so a
reference needs no proof that its target exists, and the two laws below say everything there
is to know about reading after writing.

## Main definitions

* `Table`: the array and its reading function `Table.get`.
* `Table.set`, `Table.modify`, `Table.push`: writing.

## Main results

* `Table.get_set`, `Table.get_modify`: a write is seen at its own index and nowhere else.
-/

namespace Midend

/-- A growing array with a value at every index. -/
structure Table (α : Type) where
  /-- The cells written so far. -/
  cells : Array α := #[]
  deriving DecidableEq, Repr

namespace Table

variable {α : Type}

instance : Inhabited (Table α) := ⟨{}⟩

/-- The number of cells written so far; the next pushed cell has this index. -/
def size (t : Table α) : Nat := t.cells.size

/-- Adds a cell behind the last one. -/
def push (t : Table α) (a : α) : Table α := ⟨t.cells.push a⟩

@[simp] theorem size_push (t : Table α) (a : α) : (t.push a).size = t.size + 1 := by
  simp [push, size]

variable [Inhabited α]

/-- The value at an index, the default value if nothing was written there. -/
def get (t : Table α) (i : Nat) : α := t.cells.getD i default

/-- Writes one cell, filling up with default values if the index lies behind the end. -/
def set (t : Table α) (i : Nat) (a : α) : Table α :=
  if i < t.cells.size then ⟨t.cells.setIfInBounds i a⟩
  else ⟨(t.cells ++ Array.replicate (i - t.cells.size) default).push a⟩

/-- Changes one cell. -/
def modify (t : Table α) (i : Nat) (f : α → α) : Table α := t.set i (f (t.get i))

@[simp] theorem get_empty (i : Nat) : ({} : Table α).get i = default := by
  simp [get]

theorem get_set (t : Table α) (i j : Nat) (a : α) :
    (t.set i a).get j = if i = j then a else t.get j := by
  unfold set get
  split
  · rename_i h
    by_cases hij : i = j
    · subst hij
      simp [Array.getD_eq_getD_getElem?, h]
    · simp [Array.getD_eq_getD_getElem?, hij]
  · rename_i h
    simp only [Array.getD_eq_getD_getElem?, Array.getElem?_push, Array.size_append,
      Array.size_replicate, Array.getElem?_append, Array.getElem?_replicate]
    grind

@[simp] theorem get_set_self (t : Table α) (i : Nat) (a : α) : (t.set i a).get i = a := by
  simp [get_set]

theorem get_modify (t : Table α) (i j : Nat) (f : α → α) :
    (t.modify i f).get j = if i = j then f (t.get i) else t.get j :=
  get_set t i j _

theorem get_push (t : Table α) (a : α) (j : Nat) :
    (t.push a).get j = if j = t.size then a else t.get j := by
  unfold push get size
  simp only [Array.getD_eq_getD_getElem?, Array.getElem?_push]
  grind

end Table

end Midend
