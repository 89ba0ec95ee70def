import Fynd.Graph.RoundTrips

/-!
# The path search is an exact enumeration
-/

namespace Fynd

open Foundation List

namespace TopologyGraph

variable {D : Type} {graph : TopologyGraph D} [NativeWrap] {search : RouteSearch}

/-! ## The search as a whole -/

section Whole

variable {source target : NodeIndex} {path : TokenPath}

omit [NativeWrap] in
private theorem allowsNode_of_mem (starts : path.head? = some source)
    (ends : path.getLast? = some target) (intermediates : ∀ node ∈ path.tail.dropLast,
      graph.allowsNode search (source, target) node = true) {node : NodeIndex}
    (member : node ∈ path) : graph.allowsNode search (source, target) node = true := by
  obtain ⟨rest, rfl⟩ := head?_eq_some_iff.mp starts
  rcases mem_cons.mp member with rfl | later
  · exact allowsNode_source
  · rcases eq_nil_or_concat rest with rfl | ⟨middle, final, rfl⟩
    · cases later
    · rw [concat_eq_append] at later ends intermediates
      rw [← cons_append, getLast?_concat, Option.some.injEq] at ends
      rcases mem_append.mp later with inner | last
      · exact intermediates node (by simpa using inner)
      · obtain rfl : node = final := by simpa using last
        rw [ends]
        exact allowsNode_target

private theorem isTokenRoute_iff_of_ne (distinct : source ≠ target) :
    graph.IsTokenRoute source target search path ↔
      (graph.WalkPath search (source, target) source path ∧ path.getLast? = some target ∧
        search.bounds.minHops ≤ graph.countedHops path ∧
        graph.countedHops path ≤ search.bounds.maxHops) ∧
      ∀ token ∈ search.constraints.requiredTokens, token ∈ path.map (tokenOf graph.graph) := by
  constructor
  · intro ⟨starts, ends, once, steps, intermediates, hops, required⟩
    rw [if_neg distinct] at once
    exact ⟨⟨⟨starts, once, steps, fun _ => allowsNode_of_mem starts ends intermediates⟩, ends,
      hops⟩, required⟩
  · intro ⟨⟨walk, ends, hops⟩, required⟩
    refine ⟨walk.starts, ends, by rw [if_neg distinct]; exact walk.nodup, walk.linked, ?_, hops,
      required⟩
    exact fun node inner =>
      walk.allowed node (mem_of_mem_tail (mem_of_mem_dropLast inner))

private theorem isTokenRoute_self_iff (atLeastOne : 1 ≤ search.bounds.minHops) :
    graph.IsTokenRoute target target search path ↔
      (∃ front last, path = front ++ [last, target] ∧
        graph.WalkPath search (target, target) target (front ++ [last]) ∧
        graph.AllowedStep search.constraints last target ∧
        search.bounds.minHops ≤ graph.countedHops path ∧
        graph.countedHops path ≤ search.bounds.maxHops) ∧
      ∀ token ∈ search.constraints.requiredTokens, token ∈ path.map (tokenOf graph.graph) := by
  constructor
  · intro ⟨starts, ends, once, steps, intermediates, hops, required⟩
    refine ⟨?_, required⟩
    obtain ⟨open_, rfl⟩ := getLast?_eq_some_iff.mp ends
    rcases eq_nil_or_concat open_ with rfl | ⟨front, last, rfl⟩
    · have none : graph.countedHops [target] = 0 := rfl
      rw [nil_append, none] at hops
      omega
    · rw [concat_eq_append] at starts ends once steps intermediates hops ⊢
      have starts' : (front ++ [last]).head? = some target := by
        cases front <;> simpa using starts
      obtain ⟨rest, shape⟩ := head?_eq_some_iff.mp starts'
      rw [if_pos rfl, shape, cons_append, tail_cons] at once
      obtain ⟨early, -, apart⟩ := nodup_append.mp once
      obtain ⟨chain, -, step⟩ := isChain_append.mp steps
      refine ⟨front, last, by simp, ⟨starts', ?_, chain, ?_⟩, ?_, hops⟩
      · rw [shape]
        exact nodup_cons.mpr ⟨fun again => apart target again target (by simp) rfl, early⟩
      · exact fun node member => allowsNode_of_mem starts ends intermediates
          (mem_append_left _ member)
      · exact step last (by simp) target (by simp)
  · intro ⟨⟨front, last, shape, walk, step, hops⟩, required⟩
    have shape' : path = (front ++ [last]) ++ [target] := by simp [shape]
    obtain ⟨rest, opened⟩ := head?_eq_some_iff.mp walk.starts
    have nodup := walk.nodup
    rw [opened] at shape' nodup
    obtain ⟨fresh, early⟩ := nodup_cons.mp nodup
    refine ⟨by simp [shape'], by rw [shape', getLast?_concat], ?_, ?_, ?_, hops, required⟩
    · rw [if_pos rfl, shape', cons_append, tail_cons]
      exact nodup_append.mpr ⟨early, by simp, fun node member other final same => fresh (by
        obtain rfl : other = target := by simpa using final
        exact same ▸ member)⟩
    · rw [shape', ← opened]
      refine isChain_append.mpr ⟨walk.linked, by simp, fun node final other first => ?_⟩
      obtain rfl : last = node := by simpa using final
      obtain rfl : target = other := by simpa using first
      exact step
    · intro node inner
      refine walk.allowed node ?_
      rw [shape', cons_append, tail_cons, dropLast_concat] at inner
      rw [opened]
      exact mem_cons_of_mem _ inner

end Whole

/-- **The path search is an exact enumeration.** It returns no path twice, between two tokens the
ones with fewer hops first, round trips those with fewer steps. A query for at least zero hops
matches nothing. Any other returns the token routes, if paths of half the hops to the other token
turn back. -/
theorem pathsBetweenIx_exact (graph : TopologyGraph D) (source target : NodeIndex)
    (search : RouteSearch) :
    (graph.pathsBetweenIx source target search).Nodup ∧
    (graph.pathsBetweenIx source target search).Pairwise (fun first second =>
      if source = target then first.length ≤ second.length
      else graph.nonWrapHops first ≤ graph.nonWrapHops second) ∧
    (search.bounds.minHops = 0 → graph.pathsBetweenIx source target search = []) ∧
    (1 ≤ search.bounds.minHops →
      (source ≠ target → graph.TurnsBack search source target (search.bounds.maxHops / 2)) →
      ∀ path, path ∈ graph.pathsBetweenIx source target search ↔
        graph.IsTokenRoute source target search path) := by
  by_cases matching : 1 ≤ search.bounds.minHops ∧ search.bounds.minHops ≤ search.bounds.maxHops
  · obtain ⟨atLeastOne, ordered⟩ := matching
    have guard : ¬ (search.bounds.minHops = 0 ||
        search.bounds.maxHops < search.bounds.minHops) = true := by
      simp only [Bool.or_eq_true, decide_eq_true_eq]
      omega
    have visits : ∀ path : TokenPath, search.constraints.visitsAllRequiredTokens
        (path.map (tokenOf graph.graph)) = true ↔
        ∀ token ∈ search.constraints.requiredTokens, token ∈ path.map (tokenOf graph.graph) :=
      fun path => by rw [ResolvedRouteConstraints.visitsAllRequiredTokens, decide_eq_true_eq]
    simp only [pathsBetweenIx, if_neg guard]
    by_cases same : source = target
    · subst same
      obtain ⟨nodup, sorted, exact⟩ := graph.circularTokenPaths_exact atLeastOne ordered
      simp only [if_true]
      refine ⟨nodup.filter _, sorted.filter _, fun zero => by omega, fun _ _ path => ?_⟩
      rw [mem_filter, exact, visits, isTokenRoute_self_iff atLeastOne]
    · obtain ⟨nodup, sorted, exact⟩ :=
        bidirectionalSearch_exact graph same atLeastOne ordered
      simp only [if_neg same]
      refine ⟨nodup.filter _, sorted.filter _, fun zero => by omega, fun _ turns path => ?_⟩
      rw [mem_filter, exact (turns same), visits, isTokenRoute_iff_of_ne same]
  · have none : graph.pathsBetweenIx source target search = [] := by
      simp only [pathsBetweenIx]
      rw [if_pos (by simp only [Bool.or_eq_true, decide_eq_true_eq]; omega)]
    rw [none]
    refine ⟨nodup_nil, List.Pairwise.nil, fun _ => rfl, fun atLeastOne _ path =>
      ⟨fun never => (by cases never), fun route => ?_⟩⟩
    have hops := route.hops
    omega

private theorem tradesBothWays_of_edges {constraints : ResolvedRouteConstraints}
    (bothWays : ∀ edge ∈ graph.graph.edges,
      graph.AllowedStep constraints edge.source edge.target →
        graph.AllowedStep constraints edge.target edge.source) :
    graph.TradesBothWays constraints := by
  intro source target step
  by_cases wrap : graph.isWrapPair source target = true
  · rw [AllowedStep, if_pos wrap] at step
    rw [AllowedStep, isWrapPair_comm, if_pos wrap]
    exact step
  · have member := mem_neighbors_of_allowedStep step (by simp [hopCost, wrap])
    obtain ⟨edge, inside, enters⟩ := mem_map.mp member
    obtain ⟨inGraph, leaves⟩ := StableDiGraph.mem_outgoing.mp inside
    have turned := bothWays edge inGraph
    rw [leaves, enters] at turned
    exact turned step

end TopologyGraph

/-! ## Sample graphs -/

section Samples

attribute [local instance] sampleWrap

/-- The graph of components given by their swap directions. -/
def sampleGraph (components : List (ComponentId × List SwapDirection)) : TopologyGraph Unit :=
  (TopologyGraphManager.initializeGraph (topologyOf components)).graph

def sampleSearch (minHops maxHops : Nat) (excludedPools : Finset ComponentId) : RouteSearch :=
  ⟨⟨minHops, maxHops, none⟩, ⟨excludedPools, ∅, ∅, ∅⟩⟩

/-- Three tokens that trade with each other, two of them through the wrap. -/
def triangle : TopologyGraph Unit :=
  sampleGraph [("wrap", [(0, 1), (1, 0)]), ("a", [(0, 2), (2, 0)]), ("b", [(1, 2), (2, 1)])]

/-- Two pools, each in one direction only. -/
def oneWay : TopologyGraph Unit := sampleGraph [("a", [(0, 1)]), ("b", [(1, 2)])]

/-- A pool beside the wrap on the same pair. -/
def besideWrap : TopologyGraph Unit :=
  sampleGraph [("wrap", [(0, 1), (1, 0)]), ("a", [(0, 1), (1, 0)])]

/-- A round trip of two hops through the wrap and one of three hops. -/
def roundTrips : TopologyGraph Unit :=
  sampleGraph [("wrap", [(0, 1), (1, 0)]), ("a", [(0, 2), (2, 0)]), ("b", [(1, 2), (2, 1)]),
    ("c", [(0, 3), (3, 0)]), ("d", [(2, 3), (3, 2)])]

/-- The search between two tokens of the triangle, and the round trips, are exact. -/
theorem triangle_paths_exact :
    (triangle.pathsBetweenIx 0 2 (sampleSearch 1 3 ∅) = [[0, 2], [0, 1, 2]] ∧
      ∀ path, path ∈ triangle.pathsBetweenIx 0 2 (sampleSearch 1 3 ∅) ↔
        triangle.IsTokenRoute 0 2 (sampleSearch 1 3 ∅) path) ∧
    triangle.pathsBetweenIx 0 0 (sampleSearch 1 3 ∅) = [[0, 2, 0], [0, 2, 1, 0], [0, 1, 2, 0]] ∧
      ∀ path, path ∈ triangle.pathsBetweenIx 0 0 (sampleSearch 1 3 ∅) ↔
        triangle.IsTokenRoute 0 0 (sampleSearch 1 3 ∅) path := by
  have bothWays : triangle.TradesBothWays (sampleSearch 1 3 ∅).constraints :=
    TopologyGraph.tradesBothWays_of_edges (by decide +kernel)
  refine ⟨⟨by decide +kernel, ?_⟩, by decide +kernel, ?_⟩
  · exact (TopologyGraph.pathsBetweenIx_exact triangle 0 2 _).2.2.2 (by decide) fun _ =>
      bothWays.turnsBack 0 2 _
  · exact (TopologyGraph.pathsBetweenIx_exact triangle 0 0 _).2.2.2 (by decide)
      fun differ => absurd rfl differ

/-- A query for at least zero hops returns no route, a pool beside the wrap gives none, round
trips do not come by their hops, and a route through pools of one direction is lost. -/
theorem paths_not_exact :
    (triangle.IsTokenRoute 0 2 (sampleSearch 0 1 ∅) [0, 2] ∧
      triangle.pathsBetweenIx 0 2 (sampleSearch 0 1 ∅) = []) ∧
    ((∃ pool ∈ besideWrap.storedPools 0 1,
        (sampleSearch 1 1 {"wrap"}).constraints.excludesPool pool.componentId = false) ∧
      besideWrap.pathsBetweenIx 0 1 (sampleSearch 1 1 {"wrap"}) = []) ∧
    (¬ (roundTrips.pathsBetweenIx 0 0 (sampleSearch 1 3 ∅)).Pairwise fun first second =>
      roundTrips.nonWrapHops first ≤ roundTrips.nonWrapHops second) ∧
    oneWay.IsTokenRoute 0 2 (sampleSearch 1 2 ∅) [0, 1, 2] ∧
      oneWay.pathsBetweenIx 0 2 (sampleSearch 1 2 ∅) = [] := by
  refine ⟨⟨⟨?_, ?_, ?_, ?_, ?_, ?_, ?_⟩, ?_⟩, ⟨?_, ?_⟩, ?_, ⟨?_, ?_, ?_, ?_, ?_, ?_, ?_⟩, ?_⟩ <;>
    decide +kernel

end Samples

end Fynd
