import Fynd.Foundation.SimplePath
import Fynd.Graph.PathSearch

/-!
# Token routes

The routes a search should return, stated over the stored pools, and what the graph's
own tests say in those terms: a trade is an allowed step that costs a hop, the wrap an
allowed step that costs none.
-/

namespace Fynd

open Foundation List

namespace TopologyGraph

variable {D : Type}

/-! ## The steps of a route -/

/-- What a step costs: nothing on the wrap pair, one hop elsewhere. -/
def hopCost (graph : TopologyGraph D) (source target : NodeIndex) : Nat :=
  if graph.isWrapPair source target then 0 else 1

/-- The hops of a path that are not the native wrap. -/
def nonWrapHops (graph : TopologyGraph D) (path : TokenPath) : Nat := pathCost graph.hopCost path

/-- The hops a path counts; a path of a single step counts one even if it is the wrap. -/
def countedHops (graph : TopologyGraph D) (path : TokenPath) : Nat :=
  if path.length = 2 then max (graph.nonWrapHops path) 1 else graph.nonWrapHops path

/-- A step a route may take: the allowed native wrap on the wrap pair, an allowed pool in this
direction elsewhere. -/
def AllowedStep [NativeWrap] (graph : TopologyGraph D) (constraints : ResolvedRouteConstraints)
    (source target : NodeIndex) : Prop :=
  if graph.isWrapPair source target then constraints.excludesPool nativeWrapComponent = false
  else ∃ pool ∈ graph.storedPools source target, constraints.excludesPool pool.componentId = false

instance [NativeWrap] (graph : TopologyGraph D) (constraints : ResolvedRouteConstraints)
    (source target : NodeIndex) : Decidable (graph.AllowedStep constraints source target) :=
  inferInstanceAs (Decidable (if graph.isWrapPair source target then
    constraints.excludesPool nativeWrapComponent = false
    else ∃ pool ∈ graph.storedPools source target,
      constraints.excludesPool pool.componentId = false))

/-- A pair that an allowed pool trades in one direction, an allowed pool trades in the other. -/
def TradesBothWays [NativeWrap] (graph : TopologyGraph D)
    (constraints : ResolvedRouteConstraints) : Prop :=
  ∀ source target, graph.AllowedStep constraints source target →
    graph.AllowedStep constraints target source

/-- A path to the target within some hops can be taken exactly if it can be taken back. -/
def TurnsBack [NativeWrap] (graph : TopologyGraph D) (search : RouteSearch)
    (source target : NodeIndex) (hops : Nat) : Prop :=
  ∀ path : TokenPath, path.Nodup → path.getLast? = some target → graph.nonWrapHops path ≤ hops →
    (∀ node ∈ path, graph.allowsNode search (source, target) node = true) →
    (path.IsChain (graph.AllowedStep search.constraints) ↔
      path.reverse.IsChain (graph.AllowedStep search.constraints))

/-- A token path a search should return: from one endpoint to the other, no token twice but
the shared end of a round trip, allowed steps and intermediate tokens, hops within the bounds,
and every required token visited. -/
structure IsTokenRoute [NativeWrap] (graph : TopologyGraph D) (source target : NodeIndex)
    (search : RouteSearch) (path : TokenPath) : Prop where
  starts : path.head? = some source
  ends : path.getLast? = some target
  once : if source = target then path.tail.Nodup else path.Nodup
  steps : path.IsChain (graph.AllowedStep search.constraints)
  intermediates : ∀ node ∈ path.tail.dropLast,
    graph.allowsNode search (source, target) node = true
  hops : search.bounds.minHops ≤ graph.countedHops path ∧
    graph.countedHops path ≤ search.bounds.maxHops
  required : ∀ token ∈ search.constraints.requiredTokens, token ∈ path.map (tokenOf graph.graph)

variable {graph : TopologyGraph D}

/-- Where all trades go both ways, every path can be taken back. -/
theorem TradesBothWays.turnsBack [NativeWrap] {search : RouteSearch}
    (bothWays : graph.TradesBothWays search.constraints) (source target : NodeIndex) (hops : Nat) :
    graph.TurnsBack search source target hops := by
  intro path _ _ _ _
  rw [isChain_reverse]
  exact ⟨IsChain.imp bothWays, IsChain.imp fun first second => bothWays second first⟩

theorem isWrapPair_comm (source target : NodeIndex) :
    graph.isWrapPair source target = graph.isWrapPair target source := by
  unfold isWrapPair
  rw [min_comm, max_comm]

theorem hopCost_comm (source target : NodeIndex) :
    graph.hopCost source target = graph.hopCost target source := by
  unfold hopCost
  rw [isWrapPair_comm]

theorem hopCost_le_one (source target : NodeIndex) : graph.hopCost source target ≤ 1 := by
  unfold hopCost
  split <;> omega

variable {source target : NodeIndex} {constraints : ResolvedRouteConstraints}

/-- Only the wrap is free. -/
theorem hopCost_eq_zero :
    graph.hopCost source target = 0 ↔ graph.isWrapPair source target = true := by
  simp [hopCost]

theorem hopCost_pos : 0 < graph.hopCost source target ↔ graph.isWrapPair source target = false := by
  rw [Nat.pos_iff_ne_zero, Ne, hopCost_eq_zero, Bool.not_eq_true]

/-- There is one free pair at most. -/
theorem hopCost_one_free_pair (first second before after : NodeIndex)
    (free : graph.hopCost first second = 0) (free' : graph.hopCost before after = 0) :
    after = first ∨ after = second := by
  rw [hopCost_eq_zero, isWrapPair, decide_eq_true_eq] at free free'
  rw [free, Option.some.injEq, Prod.mk.injEq, min_def, min_def, max_def, max_def] at free'
  split_ifs at free' <;> simp [free']

theorem wrapTwin_of_isWrapPair (pair : graph.isWrapPair source target = true) :
    graph.wrapTwin source = some target := by
  rw [isWrapPair, decide_eq_true_eq] at pair
  simp only [wrapTwin, pair]
  rcases Nat.le_total source target with le | le
  · simp [Nat.min_eq_left le, Nat.max_eq_right le]
  · rw [Nat.min_eq_right le, Nat.max_eq_left le]
    split <;> simp_all

theorem isSome_wrapEnds (pair : graph.isWrapPair source target = true) :
    graph.wrapEnds.isSome = true := by
  rw [isWrapPair, decide_eq_true_eq] at pair
  simp [pair]

/-! ## Edges and pools -/

private theorem storedPools_eq {edge : StableEdge (PairEdge D)}
    (member : edge ∈ graph.graph.edges) :
    graph.storedPools edge.source edge.target = edge.weight.pools := by
  have listed : graph.getEdgeIx edge.source edge.target = some edge.index :=
    (graph.pairs_exact _ _).mpr ⟨edge, member, rfl, rfl⟩
  have found := StableDiGraph.edge?_eq_some.mpr ⟨member, rfl⟩
  simp [storedPools, listed, found]

private theorem mem_neighbors :
    target ∈ graph.neighbors source ↔ graph.storedPools source target ≠ [] := by
  simp only [neighbors, mem_map, StableDiGraph.mem_outgoing]
  refine ⟨fun ⟨edge, ⟨member, leaves⟩, enters⟩ => ?_, fun pools => ?_⟩
  · rw [← leaves, ← enters, storedPools_eq member]
    exact graph.traded edge member
  · cases listed : graph.getEdgeIx source target with
    | none => simp [storedPools, listed] at pools
    | some index =>
      obtain ⟨edge, member, leaves, enters, -⟩ := getEdgeIx_eq_some.mp listed
      exact ⟨edge, ⟨member, leaves⟩, enters⟩

theorem nodup_neighbors (source : NodeIndex) : (graph.neighbors source).Nodup := by
  have distinct : graph.graph.edges.Nodup := (nodup_append.mp graph.graph.indices_nodup).1.of_map _
  refine (distinct.filter _).map_on fun first here second there same => ?_
  obtain ⟨member, leaves⟩ := StableDiGraph.mem_outgoing.mp here
  obtain ⟨member', leaves'⟩ := StableDiGraph.mem_outgoing.mp there
  exact edge_unique member member' (leaves.trans leaves'.symm) same

theorem excludesPool_of_isEmpty (none : constraints.isEmpty = true) (id : ComponentId) :
    constraints.excludesPool id = false := by
  simp only [ResolvedRouteConstraints.isEmpty, Bool.and_eq_true, decide_eq_true_eq] at none
  simp [ResolvedRouteConstraints.excludesPool, ResolvedRouteConstraints.isUnsyncedPool, none]

variable [NativeWrap] {search : RouteSearch}

theorem pairHasAllowedTrade_iff : graph.pairHasAllowedTrade source target constraints = true ↔
      graph.AllowedStep constraints source target ∧ graph.hopCost source target = 1 := by
  by_cases pair : graph.isWrapPair source target = true
  · simp [pairHasAllowedTrade, hopCost, pair]
  · simp only [pairHasAllowedTrade, poolsBetween, AllowedStep, hopCost, pair]
    by_cases none : constraints.isEmpty = true
    · simp [none, excludesPool_of_isEmpty none, eq_nil_iff_forall_not_mem]
    · simp [none]

theorem pairHasAllowedWrap_iff : graph.pairHasAllowedWrap source target constraints = true ↔
      graph.AllowedStep constraints source target ∧ graph.hopCost source target = 0 := by
  by_cases pair : graph.isWrapPair source target = true
  · simp [pairHasAllowedWrap, AllowedStep, hopCost, pair]
  · simp [pairHasAllowedWrap, hopCost, pair]

theorem mem_neighbors_of_allowedStep (step : graph.AllowedStep constraints source target)
    (costly : graph.hopCost source target = 1) : target ∈ graph.neighbors source := by
  rw [mem_neighbors]
  have apart : graph.isWrapPair source target = false := hopCost_pos.mp (by omega)
  simp only [AllowedStep, apart, Bool.false_eq_true, ↓reduceIte] at step
  obtain ⟨pool, member, -⟩ := step
  exact ne_nil_of_mem member

end TopologyGraph

end Fynd
