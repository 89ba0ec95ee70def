import Mathlib.Data.List.Nodup

/-!
# Directed graphs with stable edge indices

Nodes are numbered in order of insertion. Edges keep their index for as long as they
live; the index of a removed edge goes to the next edge added. The edges of a node
are listed newest first.
-/

namespace Fynd.Foundation

open List

/-- An edge with its index, its two ends and its weight. -/
structure StableEdge (E : Type) where
  index : Nat
  source : Nat
  target : Nat
  weight : E
  deriving DecidableEq, Repr

namespace StableEdge

variable {E : Type}

/-- Changes the weight of an edge if it has the index. -/
def modify (index : Nat) (change : E → E) (edge : StableEdge E) : StableEdge E :=
  if edge.index = index then { edge with weight := change edge.weight } else edge

variable (index : Nat) (change : E → E) (edge : StableEdge E)

@[simp]
theorem modify_index : (edge.modify index change).index = edge.index := by
  unfold modify
  split <;> rfl

@[simp]
theorem modify_source : (edge.modify index change).source = edge.source := by
  unfold modify
  split <;> rfl

@[simp]
theorem modify_target : (edge.modify index change).target = edge.target := by
  unfold modify
  split <;> rfl

end StableEdge

/-- A directed graph. Live indices and free ones are disjoint and below the bound, and every
edge joins two nodes. -/
structure StableDiGraph (N E : Type) where
  nodes : List N
  edges : List (StableEdge E)
  freeIndices : List Nat
  indexBound : Nat
  indices_nodup : (edges.map StableEdge.index ++ freeIndices).Nodup
  indices_lt : ∀ index ∈ edges.map StableEdge.index ++ freeIndices, index < indexBound
  ends_lt : ∀ edge ∈ edges, edge.source < nodes.length ∧ edge.target < nodes.length

namespace StableDiGraph

variable {N E : Type}

/-- The graph without nodes. -/
def empty : StableDiGraph N E where
  nodes := []
  edges := []
  freeIndices := []
  indexBound := 0
  indices_nodup := by simp
  indices_lt := by simp
  ends_lt := by simp

/-- The indices of the nodes. -/
def nodeIndices (graph : StableDiGraph N E) : List Nat := List.range graph.nodes.length

/-- The edges that leave a node. -/
def outgoing (graph : StableDiGraph N E) (node : Nat) : List (StableEdge E) :=
  graph.edges.filter fun edge => edge.source = node

/-- The edge with an index. -/
def edge? (graph : StableDiGraph N E) (index : Nat) : Option (StableEdge E) :=
  graph.edges.find? fun edge => edge.index = index

variable {graph : StableDiGraph N E} {edge : StableEdge E} {index : Nat}

theorem mem_outgoing {node : Nat} :
    edge ∈ graph.outgoing node ↔ edge ∈ graph.edges ∧ edge.source = node := by
  simp [outgoing]

section

variable (graph : StableDiGraph N E)

/-- Adds a node and returns its index. -/
def addNode (weight : N) : Nat × StableDiGraph N E :=
  (graph.nodes.length,
    { graph with
      nodes := graph.nodes ++ [weight]
      ends_lt := fun edge member => by
        have ends := graph.ends_lt edge member
        simp only [length_append, length_singleton]
        omega })

/-- The index the next edge takes. -/
def nextIndex : Nat := graph.freeIndices.headD graph.indexBound

private theorem nextIndex_fresh :
    graph.nextIndex ∉ graph.edges.map StableEdge.index ++ graph.freeIndices.tail := by
  have distinct := graph.indices_nodup
  have bounded := graph.indices_lt
  unfold nextIndex
  cases free : graph.freeIndices with
  | nil =>
    rw [free] at bounded
    exact fun used => Nat.lt_irrefl _ (bounded _ used)
  | cons index rest =>
    rw [free] at distinct
    have moved := perm_middle.nodup_iff.mp distinct
    exact (nodup_cons.mp moved).1

/-- Adds an edge between two nodes and returns its index. Both must be in the graph: without
one of them nothing is added. -/
def addEdge (source target : Nat) (weight : E) : Nat × StableDiGraph N E :=
  if inside : source < graph.nodes.length ∧ target < graph.nodes.length then
    (graph.nextIndex,
      { graph with
        edges := ⟨graph.nextIndex, source, target, weight⟩ :: graph.edges
        freeIndices := graph.freeIndices.tail
        indexBound := max graph.indexBound (graph.nextIndex + 1)
        indices_nodup := by
          have distinct : (graph.edges.map StableEdge.index ++ graph.freeIndices.tail).Nodup :=
            graph.indices_nodup.sublist
              (List.Sublist.append (List.Sublist.refl _) (tail_sublist _))
          simpa using nodup_cons.mpr ⟨graph.nextIndex_fresh, distinct⟩
        indices_lt := by
          intro index member
          rw [map_cons, cons_append] at member
          obtain rfl | old := mem_cons.mp member
          · exact Nat.lt_of_lt_of_le (Nat.lt_succ_self _) (Nat.le_max_right _ _)
          · have bounded := graph.indices_lt index (by
              obtain live | free := mem_append.mp old
              · exact mem_append_left _ live
              · exact mem_append_right _ (mem_of_mem_tail free))
            omega
        ends_lt := by
          intro edge member
          obtain rfl | old := mem_cons.mp member
          · exact inside
          · exact graph.ends_lt edge old })
  else (graph.indexBound, graph)

/-- Removes an edge by its index and frees the index. -/
def removeEdge (index : Nat) : StableDiGraph N E :=
  if live : index ∈ graph.edges.map StableEdge.index then
    { graph with
      edges := graph.edges.filter fun edge => edge.index ≠ index
      freeIndices := index :: graph.freeIndices
      indices_nodup := by
        have distinct := nodup_append.mp graph.indices_nodup
        refine nodup_append.mpr ⟨?_, ?_, ?_⟩
        · exact distinct.1.sublist (List.Sublist.map _ filter_sublist)
        · exact nodup_cons.mpr ⟨fun free => distinct.2.2 index live index free rfl, distinct.2.1⟩
        · intro kept member other free
          obtain ⟨edge, remains, rfl⟩ := mem_map.mp member
          obtain ⟨inGraph, differs⟩ := by simpa using remains
          obtain rfl | old := mem_cons.mp free
          · exact differs
          · exact distinct.2.2 _ (mem_map.mpr ⟨edge, inGraph, rfl⟩) other old
      indices_lt := by
        intro other member
        refine graph.indices_lt other ?_
        obtain kept | freed := mem_append.mp member
        · obtain ⟨edge, remains, rfl⟩ := mem_map.mp kept
          exact mem_append_left _ (mem_map.mpr ⟨edge, (mem_filter.mp remains).1, rfl⟩)
        · obtain rfl | old := mem_cons.mp freed
          · exact mem_append_left _ live
          · exact mem_append_right _ old
      ends_lt := fun edge member => graph.ends_lt edge (mem_filter.mp member).1 }
  else graph

end

private theorem map_index_modify (index : Nat) (change : E → E) (edges : List (StableEdge E)) :
    (edges.map (StableEdge.modify index change)).map StableEdge.index =
      edges.map StableEdge.index := by
  rw [map_map]
  exact map_congr_left fun edge _ => edge.modify_index index change

/-- Changes the weight of the edge with an index. -/
def modifyEdge (graph : StableDiGraph N E) (index : Nat) (change : E → E) : StableDiGraph N E :=
  { graph with
    edges := graph.edges.map (StableEdge.modify index change)
    indices_nodup := by
      rw [map_index_modify]
      exact graph.indices_nodup
    indices_lt := by
      rw [map_index_modify]
      exact graph.indices_lt
    ends_lt := by
      intro edge member
      obtain ⟨old, inGraph, rfl⟩ := mem_map.mp member
      simpa using graph.ends_lt old inGraph }

/-! ## What the operations do to nodes and edges -/

/-- Edges are told apart by their indices. -/
theorem eq_of_index_eq {first second : StableEdge E} (here : first ∈ graph.edges)
    (there : second ∈ graph.edges) (same : first.index = second.index) : first = second :=
  inj_on_of_nodup_map (nodup_append.mp graph.indices_nodup).1 here there same

theorem edge?_eq_some :
    graph.edge? index = some edge ↔ edge ∈ graph.edges ∧ edge.index = index := by
  refine ⟨fun found => ⟨mem_of_find?_eq_some found, by simpa using find?_some found⟩, ?_⟩
  intro ⟨member, named⟩
  cases found : graph.edge? index with
  | none => exact absurd named (by simpa using find?_eq_none.mp found edge member)
  | some other =>
    have named' : other.index = index := by simpa using find?_some found
    rw [eq_of_index_eq (mem_of_find?_eq_some found) member (named'.trans named.symm)]

/-- A graph with a node added has its nodes and the new one. -/
theorem getElem?_addNode (graph : StableDiGraph N E) (weight other : N) (node : Nat) :
    (graph.addNode weight).2.nodes[node]? = some other ↔
      graph.nodes[node]? = some other ∨ node = graph.nodes.length ∧ other = weight := by
  simp only [addNode]
  rcases Nat.lt_trichotomy node graph.nodes.length with old | rfl | beyond
  · rw [getElem?_append_left old]
    simp [Nat.ne_of_lt old]
  · simp [eq_comm]
  · have short : (graph.nodes ++ [weight]).length ≤ node := by
      rw [length_append, length_singleton]
      exact beyond
    rw [getElem?_eq_none short, getElem?_eq_none (Nat.le_of_lt beyond)]
    simp [Nat.ne_of_gt beyond]

/-- An edge between nodes of the graph gets the next index. -/
theorem addEdge_of_inside {source target : Nat} (weight : E)
    (inside : source < graph.nodes.length ∧ target < graph.nodes.length) :
    (graph.addEdge source target weight).1 = graph.nextIndex ∧
      (graph.addEdge source target weight).2.edges =
        ⟨graph.nextIndex, source, target, weight⟩ :: graph.edges ∧
      (graph.addEdge source target weight).2.nodes = graph.nodes := by
  unfold addEdge
  rw [dif_pos inside]
  exact ⟨rfl, rfl, rfl⟩

/-- A removal takes out the edge of its index. -/
theorem mem_removeEdge :
    edge ∈ (graph.removeEdge index).edges ↔ edge ∈ graph.edges ∧ edge.index ≠ index := by
  unfold removeEdge
  split
  · simp
  · rename_i dead
    refine ⟨fun member => ⟨member, fun same => dead ?_⟩, And.left⟩
    exact mem_map.mpr ⟨edge, member, same⟩

@[simp]
theorem nodes_removeEdge (graph : StableDiGraph N E) (index : Nat) :
    (graph.removeEdge index).nodes = graph.nodes := by
  unfold removeEdge
  split <;> rfl

theorem mem_modifyEdge {change : E → E} : edge ∈ (graph.modifyEdge index change).edges ↔
      ∃ old ∈ graph.edges, old.modify index change = edge :=
  mem_map

end StableDiGraph

end Fynd.Foundation
