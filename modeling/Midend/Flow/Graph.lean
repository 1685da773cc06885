import Midend.Fault
import Midend.Flow.Digraphs
import Midend.Program.Basic

/-!
# Control-flow graphs

A snapshot of the jumps of one function, in a graph of a library.  Nodes are the positions of its
blocks, which are the numbers the blocks are given when they are added.  A jump of a block to itself
cannot be an edge there and is kept aside.  A jump to a block of another function counts as a jump to
the block at that position, except that it may not have the position of the block it comes from.

## Main definitions

* `Graph`, `Graph.ofFunc`: the snapshot.
* `Graph.predecessors`: the blocks a block can be entered from.
* `Graph.unreachable`: the blocks that cannot be entered from the first one.
* `maxOutDegree`: the largest number of successors.
-/

namespace Midend.Flow

/-- The jumps of a function. -/
structure Graph (G : Type) where
  /-- The function. -/
  func : FuncId
  /-- The jumps from one block to another, by position. -/
  edges : G
  /-- The blocks that jump to themselves. -/
  loops : List BlockRef

/-- The jumps of a function, block by block: where they come from and where they go to. -/
def jumps (p : Program) (f : FuncId) : List (BlockRef × BlockRef) :=
  (p.blockRefs f).flatMap fun b => (p.successors b).map (b, ·)

/-- Puts a block before the first one that does not come before it. -/
def insertByIndex (b : BlockRef) : List BlockRef → List BlockRef
  | [] => [b]
  | c :: rest => if b.index ≤ c.index then b :: c :: rest else c :: insertByIndex b rest

/-- Blocks in the order of their positions. -/
def sortByIndex (blocks : List BlockRef) : List BlockRef := blocks.foldr insertByIndex []

namespace Graph

variable {G : Type} [Digraphs G]

/-- Adds a jump. -/
def addJump (g : Graph G) (jump : BlockRef × BlockRef) : Except Fault (Graph G) :=
  if jump.2 = jump.1 then
    .ok { g with loops := if g.loops.contains jump.1 then g.loops else jump.1 :: g.loops }
  else
    match Digraphs.setEdge g.edges jump.1.index jump.2.index with
    | some edges => .ok { g with edges := edges }
    | none => .error .selfEdge

/-- The snapshot of a function: its blocks first, then their jumps. -/
def ofFunc (p : Program) (f : FuncId) : Except Fault (Graph G) :=
  let nodes := (p.blockRefs f).foldl (fun g b => Digraphs.addNode g b.index) Digraphs.empty
  (jumps p f).foldlM addJump ⟨f, nodes, []⟩

/-- The blocks of the function with an edge to `b`, and `b` itself if it is kept aside, in the order of
their positions. -/
def predecessors (g : Graph G) (b : BlockRef) : List BlockRef :=
  let incoming := (Digraphs.sources g.edges b.index).map (⟨g.func, ·⟩)
  sortByIndex (if g.loops.contains b then incoming ++ [b] else incoming)

/-- The blocks that a walk from the first one does not come to, in function order. -/
def unreachable (g : Graph G) (p : Program) : List BlockRef :=
  (p.blockRefs g.func).filter fun b => !Digraphs.visits g.edges 0 b.index

end Graph

/-- The largest number of distinct blocks a block of a function jumps to. -/
def maxOutDegree (p : Program) (f : FuncId) : Nat :=
  ((p.blockRefs f).map fun b => (p.successors b).length).foldl max 0

end Midend.Flow
