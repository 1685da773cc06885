/-!
# Finite directed graphs

What a library of finite directed graphs offers.  Nodes are numbers, there is at most one edge from a
node to another, and none from a node to itself.  What the control-flow graphs are built on is any
such library; one that keeps its edges in a list is given here.

## Main definitions

* `Digraphs`: the operations of a library.
* `EdgeList`: graphs as lists of edges.
-/

namespace Midend.Flow

/-- A type of finite directed graphs. -/
class Digraphs (G : Type) where
  /-- The graph without nodes. -/
  empty : G
  /-- Adds a node. -/
  addNode : G → Nat → G
  /-- Adds an edge from one node to another, and the nodes if they are missing.  An edge from a node to
  itself is refused. -/
  setEdge : G → Nat → Nat → Option G
  /-- The nodes with an edge to a node, in an order of the library's own. -/
  sources : G → Nat → List Nat
  /-- Does a breadth-first walk from the first node come to the second one? -/
  visits : G → Nat → Nat → Bool

/-! ### Lists of edges -/

/-- The edges of a graph, none of them twice.  Nodes without edges are not noted. -/
structure EdgeList where
  /-- The edges. -/
  edges : List (Nat × Nat)
  /-- They are distinct. -/
  nodup : edges.Nodup

namespace EdgeList

/-- Adds an edge, unless it is there. -/
def insert (g : EdgeList) (e : Nat × Nat) : EdgeList :=
  if h : e ∈ g.edges then g else ⟨e :: g.edges, List.nodup_cons.mpr ⟨h, g.nodup⟩⟩

/-- The nodes with an edge to a node. -/
def sources (g : EdgeList) (k : Nat) : List Nat := (g.edges.filter (·.2 = k)).map Prod.fst

/-- The nodes behind `frontier` that have not been seen. -/
def found (g : EdgeList) (seen frontier : List Nat) : List Nat :=
  ((g.edges.filter fun e => frontier.contains e.1 && !seen.contains e.2).map Prod.snd).eraseDups

/-- A walk, round by round: the nodes in `seen`, and those behind `frontier`, the nodes that were found
last.  Every round but the last finds a node that an edge leads to, so `fuel` is enough if it exceeds
the number of edges. -/
def walk (g : EdgeList) : Nat → List Nat → List Nat → List Nat
  | 0, seen, _ => seen
  | fuel + 1, seen, frontier =>
    if (g.found seen frontier).isEmpty then seen
    else g.walk fuel (seen ++ g.found seen frontier) (g.found seen frontier)

instance : Digraphs EdgeList where
  empty := ⟨[], List.nodup_nil⟩
  addNode g _ := g
  setEdge g j k := if j = k then none else some (g.insert (j, k))
  sources := sources
  visits g j k := (g.walk (g.edges.length + 1) [j] [j]).contains k

end EdgeList

end Midend.Flow
