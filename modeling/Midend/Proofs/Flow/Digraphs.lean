import Mathlib.Data.List.Nodup
import Mathlib.Data.List.Perm.Subperm
import Mathlib.Logic.Relation
import Midend.Proofs.Program.Verifier

/-!
# Libraries of directed graphs

What is asked of a library of directed graphs: an edge that is added is there, together with those that
were there before, an edge from a node to itself is refused, the nodes with an edge to a node come each
once, in whatever order, and a walk comes to just the nodes that a path leads to.

Lists of edges keep to this.  A walk there goes by rounds, and in each round it looks behind the nodes
that were found in the round before.  What has been seen is always closed under edges but for those nodes,
so it is closed altogether once a round finds nothing new.  Every other round finds a node that was not
seen before, and so there cannot be more rounds than there are edges.

## Main definitions

* `LawfulDigraphs`: what is asked of a library.
* `EdgeList.Searched`: what holds between the rounds of a walk.

## Main results

* `EdgeList.Searched.round`, `EdgeList.Searched.walk`: one round, and all of them.
* `EdgeList.visits_iff`: a walk comes to what can be reached.
-/

namespace Midend.Flow

open Relation

/-- There is an edge from one node to another. -/
def Digraphs.Edge {G : Type} [Digraphs G] (g : G) (j k : Nat) : Prop := j ∈ Digraphs.sources g k

open Digraphs in
/-- The operations of a library are those of finite directed graphs. -/
class LawfulDigraphs (G : Type) [Digraphs G] : Prop where
  /-- There are no edges to begin with. -/
  edge_empty : ∀ j k, ¬ Edge (empty : G) j k
  /-- A node comes without edges. -/
  edge_addNode : ∀ (g : G) n j k, Edge (addNode g n) j k ↔ Edge g j k
  /-- No node has an edge to itself. -/
  setEdge_self : ∀ (g : G) k, setEdge g k k = none
  /-- All other edges can be added, and nothing else is. -/
  setEdge_ne : ∀ (g : G) j k, j ≠ k →
    ∃ g', setEdge g j k = some g' ∧ ∀ i m, Edge g' i m ↔ Edge g i m ∨ i = j ∧ m = k
  /-- The nodes with an edge to a node come each once. -/
  nodup_sources : ∀ (g : G) k, (sources g k).Nodup
  /-- A walk comes to the nodes that a path leads to. -/
  visits_iff : ∀ (g : G) j k, visits g j k = true ↔ ReflTransGen (Edge g) j k

namespace EdgeList

variable {g : EdgeList} {j k : Nat} {seen frontier : List Nat}

/-! ### Edges -/

theorem mem_sources : j ∈ g.sources k ↔ (j, k) ∈ g.edges := by
  simp only [sources, List.mem_map, List.mem_filter, decide_eq_true_eq]
  constructor
  · rintro ⟨⟨_, _⟩, ⟨he, rfl⟩, rfl⟩
    exact he
  · intro he
    exact ⟨(j, k), ⟨he, rfl⟩, rfl⟩

theorem nodup_sources (g : EdgeList) (k : Nat) : (g.sources k).Nodup := by
  refine List.Nodup.map_on ?_ (g.nodup.filter _)
  rintro ⟨i, m⟩ hi ⟨i', m'⟩ hi' rfl
  have hm := of_decide_eq_true (List.mem_filter.mp hi).2
  have hm' := of_decide_eq_true (List.mem_filter.mp hi').2
  exact Prod.ext rfl (hm.trans hm'.symm)

theorem mem_edges_insert {e e' : Nat × Nat} :
    e' ∈ (g.insert e).edges ↔ e' ∈ g.edges ∨ e' = e := by
  unfold insert
  split
  · next he =>
    refine ⟨.inl, fun h => h.elim id ?_⟩
    rintro rfl
    exact he
  · exact List.mem_cons.trans or_comm

/-! ### Walks -/

theorem mem_found {m : Nat} :
    m ∈ g.found seen frontier ↔ (∃ k ∈ frontier, Digraphs.Edge g k m) ∧ m ∉ seen := by
  simp only [found, List.mem_eraseDups, List.mem_map, List.mem_filter, Bool.and_eq_true,
    List.contains_eq_mem, decide_eq_true_eq, Bool.not_eq_true', decide_eq_false_iff_not]
  constructor
  · rintro ⟨⟨k, _⟩, ⟨he, hk, hnew⟩, rfl⟩
    exact ⟨⟨k, hk, mem_sources.mpr he⟩, hnew⟩
  · rintro ⟨⟨k, hk, he⟩, hnew⟩
    exact ⟨(k, m), ⟨mem_sources.mp he, hk, hnew⟩, rfl⟩

/-- Some nodes have been seen from `j` on, of which the frontier was found last. -/
structure Searched (g : EdgeList) (j : Nat) (seen frontier : List Nat) : Prop where
  /-- The walk began at the first node. -/
  start : j ∈ seen
  /-- What has been seen can be reached. -/
  reached : ∀ k ∈ seen, ReflTransGen (Digraphs.Edge g) j k
  /-- All but the first node was seen behind an edge. -/
  behind : ∀ k ∈ seen, k = j ∨ k ∈ g.edges.map Prod.snd
  /-- None is seen twice. -/
  nodup : seen.Nodup
  /-- The frontier has been seen. -/
  found : ∀ k ∈ frontier, k ∈ seen
  /-- So has everything behind the other nodes. -/
  closed : ∀ k ∈ seen, k ∉ frontier → ∀ m, Digraphs.Edge g k m → m ∈ seen

namespace Searched

theorem first (g : EdgeList) (j : Nat) : g.Searched j [j] [j] where
  start := List.mem_cons_self
  reached k hk := by
    rw [List.mem_singleton.mp hk]
  behind k hk := .inl (List.mem_singleton.mp hk)
  nodup := List.nodup_singleton j
  found _ := id
  closed _ hk hfrontier := absurd hk hfrontier

/-- **One round** sees what is behind the frontier. -/
theorem round (h : g.Searched j seen frontier) :
    g.Searched j (seen ++ g.found seen frontier) (g.found seen frontier) where
  start := List.mem_append_left _ h.start
  reached m hm := by
    rcases List.mem_append.mp hm with hm | hm
    · exact h.reached m hm
    · obtain ⟨⟨k, hk, hedge⟩, -⟩ := mem_found.mp hm
      exact (h.reached k (h.found k hk)).tail hedge
  behind m hm := by
    rcases List.mem_append.mp hm with hm | hm
    · exact h.behind m hm
    · obtain ⟨⟨k, -, hedge⟩, -⟩ := mem_found.mp hm
      exact .inr (List.mem_map_of_mem (mem_sources.mp hedge))
  nodup := by
    refine h.nodup.append (nodup_eraseDups _) fun m hm hnew => ?_
    exact (mem_found.mp hnew).2 hm
  found _ := List.mem_append_right _
  closed k hk hold m hedge := by
    have hk := (List.mem_append.mp hk).resolve_right hold
    by_cases hfrontier : k ∈ frontier
    · by_cases hm : m ∈ seen
      · exact List.mem_append_left _ hm
      · exact List.mem_append_right _ (mem_found.mpr ⟨⟨k, hfrontier, hedge⟩, hm⟩)
    · exact List.mem_append_left _ (h.closed k hk hfrontier m hedge)

theorem length_le (h : g.Searched j seen frontier) : seen.length ≤ g.edges.length + 1 := by
  have hsub : seen ⊆ j :: g.edges.map Prod.snd := fun k hk => List.mem_cons.mpr (h.behind k hk)
  have hle := (h.nodup.subperm hsub).length_le
  rwa [List.length_cons, List.length_map] at hle

/-- **All rounds:** the walk ends with nothing left to look behind. -/
theorem walk (fuel : Nat) (seen frontier : List Nat) (h : g.Searched j seen frontier)
    (hfuel : g.edges.length + 1 < fuel + seen.length) :
    g.Searched j (g.walk fuel seen frontier) [] := by
  induction fuel generalizing seen frontier with
  | zero =>
    -- More nodes have been seen than edges lead to.
    have := h.length_le
    omega
  | succ fuel ih =>
    rw [EdgeList.walk]
    split
    · next hnone =>
      have hround := h.round
      rwa [List.isEmpty_iff.mp hnone, List.append_nil] at hround
    · next hsome =>
      have hpos : 0 < (g.found seen frontier).length :=
        List.length_pos_iff.mpr (mt List.isEmpty_iff.mpr hsome)
      refine ih _ _ h.round ?_
      rw [List.length_append]
      omega

/-- What is closed under edges has everything that can be reached. -/
theorem mem_of_reached (h : g.Searched j seen []) (hk : ReflTransGen (Digraphs.Edge g) j k) :
    k ∈ seen := by
  induction hk with
  | refl => exact h.start
  | tail _ hedge ih => exact h.closed _ ih List.not_mem_nil _ hedge

end Searched

/-- **A walk comes to just the nodes that can be reached.** -/
theorem visits_iff (g : EdgeList) (j k : Nat) :
    Digraphs.visits g j k = true ↔ ReflTransGen (Digraphs.Edge g) j k := by
  have hsearched : g.Searched j (g.walk (g.edges.length + 1) [j] [j]) [] := by
    refine .walk _ _ _ (.first g j) ?_
    rw [List.length_singleton]
    omega
  exact List.contains_iff_mem.trans ⟨hsearched.reached k, hsearched.mem_of_reached⟩

instance : LawfulDigraphs EdgeList where
  edge_empty _ _ := List.not_mem_nil
  edge_addNode _ _ _ _ := Iff.rfl
  setEdge_self _ _ := if_pos rfl
  setEdge_ne g j k hne := by
    refine ⟨g.insert (j, k), if_neg hne, fun i m => ?_⟩
    unfold Digraphs.Edge
    refine mem_sources.trans (mem_edges_insert.trans ?_)
    rw [Prod.mk.injEq]
    exact or_congr_left mem_sources.symm
  nodup_sources := nodup_sources
  visits_iff := visits_iff

end EdgeList

end Midend.Flow
