import Midend.Flow.BitSet
import Midend.Flow.Solver

/-!
# Problems with a schedule

Data-flow problems over masks of 32 bits in which a block may add something else at every visit.
What a block adds is given by label, as the list of masks for its first visit, its second visit
and so on; the last mask of the list stays in force.

## Main definitions

* `Schedule`: what the blocks add and remove.
* `Schedule.problem`: the problem, over a state that counts the visits.
-/

namespace Midend.Flow

/-- A mask of 32 bits. -/
abbrev Mask := BitSet 32

/-- What blocks add and remove, by label. -/
structure Schedule where
  /-- What a block adds, visit by visit. -/
  gens : List (String × List Mask) := []
  /-- What a block removes. -/
  kills : List (String × Mask) := []
  /-- Does a block let nothing through? -/
  ignoreIn : Bool := false
  deriving Inhabited

/-- How often each block was visited, and the changes that were reported. -/
structure Visits where
  /-- How often each label was visited. -/
  counts : List (String × Nat) := []
  /-- The changes, oldest first: the label of a block and what leaves it. -/
  changes : List (String × Mask) := []
  deriving Inhabited

namespace Schedule

/-- The mask a block with a given label adds at its visit number `visit`. -/
def genAt (s : Schedule) (label : String) (visit : Nat) : Mask :=
  let masks := (s.gens.lookup label).getD []
  masks.getD (min visit (masks.length - 1)) .empty

/-- What leaves a block. -/
def transfer (s : Schedule) (inn gen kill : Mask) : Mask :=
  if s.ignoreIn then gen else (inn.diff kill).union gen

/-- Counts a visit and yields how many there were before. -/
def countVisit (label : String) : Act Visits Nat := do
  let v ← get
  let n := (v.counts.lookup label).getD 0
  set { v with counts := (label, n + 1) :: v.counts.filter fun c => c.1 ≠ label }
  pure n

/-- The problem of a schedule, for the blocks of a program. -/
def problem (s : Schedule) (p : Program) : Problem Visits Mask where
  program _ := p
  init := .empty
  gen b := do
    let label := (p.block b).name
    return s.genAt label (← countVisit label)
  kill b _ := pure ((s.kills.lookup (p.block b).name).getD .empty)
  transfer := s.transfer
  merge := BitSet.union
  equal s t := s = t
  includes s t := t.subset s
  room := BitSet.room
  room_lt _ _ hne hsub := BitSet.room_lt (by simpa using hne) hsub

/-- Solves the problem of a schedule for a function and records the changes. -/
def solve (s : Schedule) (p : Program) (f : FuncId) : Act Visits (Solution Mask) :=
  Flow.solve (s.problem p) p f fun b out =>
    modify fun v => { v with changes := v.changes ++ [((p.block b).name, out)] }

end Schedule

end Midend.Flow
