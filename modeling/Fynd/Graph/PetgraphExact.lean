import Mathlib.Data.Set.Basic
import Fynd.Graph.Petgraph

/-!
# The pool graph and its maps

The node map and the edge map of `PetgraphStableDiGraphManager` say exactly what its
graph holds. Each operation keeps that, and its effect on the tracked directions is
its effect on the edges.
-/

namespace Fynd

open Foundation List

/-- The stale directions are tracked and not wanted. -/
theorem mem_staleDirections {V : Type} {tracked : Map SwapDirection V}
    {wanted : List SwapDirection} {direction : SwapDirection} {value : V} :
    (direction, value) ∈ staleDirections tracked wanted ↔
      tracked.lookup direction = some value ∧ direction ∉ wanted := by
  rw [staleDirections, mem_filter, mem_entries_iff, decide_eq_true_eq]

theorem mem_sortedComponents {components : MarketTopology} {component : Listing} :
    component ∈ sortedComponents components ↔
      components.lookup component.1 = some component.2 := by
  rw [sortedComponents, mem_insertionSort, mem_entries_iff]

/-! ## Nodes -/

variable {D E : Type}

/-- The nodes of one graph, under the same indices, are nodes of another. -/
def NodesKept (graph later : StableDiGraph Address E) : Prop :=
  ∀ (node : NodeIndex) (token : Address), graph.nodes[node]? = some token →
    later.nodes[node]? = some token

variable {graph : StableDiGraph Address E} {node : NodeIndex}

theorem tokenOf_eq {token : Address} (holds : graph.nodes[node]? = some token) :
    tokenOf graph node = token := by
  simp [tokenOf, holds]

theorem tokenOf_holds (inside : node < graph.nodes.length) :
    graph.nodes[node]? = some (tokenOf graph node) := by
  simp [tokenOf, inside]

theorem NodesKept.tokenOf {later : StableDiGraph Address E} (kept : NodesKept graph later)
    (inside : node < graph.nodes.length) : tokenOf later node = tokenOf graph node :=
  tokenOf_eq (kept node _ (tokenOf_holds inside))

theorem nodesKept_addNode (graph : StableDiGraph Address E) (token : Address) :
    NodesKept graph (graph.addNode token).2 :=
  fun node other holds => (graph.getElem?_addNode token other node).mpr (.inl holds)

namespace PetgraphStableDiGraphManager

/-- The component and the direction of an edge. -/
def edgeLabel (graph : TokenDiGraph D) (edge : PoolEdge D) : HeldDirection :=
  (edge.weight.componentId, tokenOf graph edge.source, tokenOf graph edge.target)

section

variable (manager : PetgraphStableDiGraphManager D)

/-- The components with the directions they have an edge for. -/
def edgeSet : Set HeldDirection :=
  {held | ∃ edge ∈ manager.graph.edges, edgeLabel manager.graph edge = held}

/-- The edge the manager tracks for a direction of a component. -/
def trackedEdge (held : HeldDirection) : Option Nat :=
  (manager.edgeMap.lookup held.1).bind fun edges => edges.lookup held.2

/-- The maps of the manager are exact. -/
structure Exact : Prop where
  nodes : ∀ token node,
    manager.nodeMap.lookup token = some node ↔ manager.graph.nodes[node]? = some token
  edges : ∀ held index, manager.trackedEdge held = some index ↔
    ∃ edge ∈ manager.graph.edges, edge.index = index ∧ edgeLabel manager.graph edge = held

end

variable {manager : PetgraphStableDiGraphManager D}

theorem Exact.mem_edgeSet (exact : manager.Exact) {held : HeldDirection} :
    held ∈ manager.edgeSet ↔ (manager.trackedEdge held).isSome = true := by
  rw [Option.isSome_iff_exists]
  simp only [exact.edges]
  exact ⟨fun ⟨edge, member, label⟩ => ⟨edge.index, edge, member, rfl, label⟩,
    fun ⟨_, edge, member, _, label⟩ => ⟨edge, member, label⟩⟩

private theorem Exact.held_unique (exact : manager.Exact) {held other : HeldDirection}
    {index : Nat} (here : manager.trackedEdge held = some index)
    (there : manager.trackedEdge other = some index) : held = other := by
  obtain ⟨edge, member, named, label⟩ := (exact.edges held index).mp here
  obtain ⟨edge', member', named', label'⟩ := (exact.edges other index).mp there
  rw [← label, ← label', StableDiGraph.eq_of_index_eq member member' (named.trans named'.symm)]

private theorem foldl_removeEdge (indices : List Nat) (graph : TokenDiGraph D) :
    (indices.foldl (fun graph index => graph.removeEdge index) graph).nodes = graph.nodes ∧
      ∀ edge, edge ∈ (indices.foldl (fun graph index => graph.removeEdge index) graph).edges ↔
        edge ∈ graph.edges ∧ edge.index ∉ indices := by
  induction indices generalizing graph with
  | nil => simp
  | cons index rest ih =>
    obtain ⟨nodes, edges⟩ := ih (graph.removeEdge index)
    refine ⟨by simpa using nodes, fun edge => ?_⟩
    rw [foldl_cons, edges, StableDiGraph.mem_removeEdge, mem_cons, not_or, and_assoc]

/-- Dropping some edges of a component, with what is tracked for them, keeps the maps exact. -/
theorem Exact.forget (exact : manager.Exact) (id : ComponentId) (gone : List (SwapDirection × Nat))
    (listed : ∀ entry ∈ gone, manager.trackedEdge (id, entry.1) = some entry.2)
    {later : PetgraphStableDiGraphManager D} (nodeMap : later.nodeMap = manager.nodeMap)
    (graph : later.graph = (gone.map Prod.snd).foldl (fun graph index => graph.removeEdge index)
      manager.graph)
    (tracked : ∀ held, later.trackedEdge held =
      if held.1 = id ∧ held.2 ∈ gone.map Prod.fst then none else manager.trackedEdge held) :
    later.Exact := by
  obtain ⟨nodes, kept⟩ := foldl_removeEdge (gone.map Prod.snd) manager.graph
  rw [← graph] at nodes kept
  refine ⟨by rw [nodes, nodeMap]; exact exact.nodes, fun held index => ?_⟩
  have label : ∀ edge, edgeLabel later.graph edge = edgeLabel manager.graph edge := by
    simp [edgeLabel, tokenOf, nodes]
  have goneIff : manager.trackedEdge held = some index →
      (index ∈ gone.map Prod.snd ↔ held.1 = id ∧ held.2 ∈ gone.map Prod.fst) := by
    intro tracked
    constructor
    · intro gone
      obtain ⟨entry, member, rfl⟩ := mem_map.mp gone
      obtain rfl := exact.held_unique tracked (listed entry member)
      exact ⟨rfl, mem_map_of_mem member⟩
    · intro ⟨mine, gone⟩
      obtain ⟨entry, member, same⟩ := mem_map.mp gone
      have here := listed entry member
      rw [show (id, entry.1) = held from Prod.ext mine.symm same, tracked] at here
      exact mem_map.mpr ⟨entry, member, (Option.some.inj here).symm⟩
  have left : later.trackedEdge held = some index ↔
      manager.trackedEdge held = some index ∧ index ∉ gone.map Prod.snd := by
    rw [tracked]
    split
    · rename_i lost
      exact iff_of_false (by simp) fun here => here.2 ((goneIff here.1).mpr lost)
    · rename_i left
      exact ⟨fun here => ⟨here, left ∘ (goneIff here).mp⟩, And.left⟩
  rw [left, exact.edges]
  simp only [kept, label]
  constructor
  · intro ⟨⟨edge, member, named, held⟩, kept⟩
    exact ⟨edge, ⟨member, named ▸ kept⟩, named, held⟩
  · intro ⟨edge, ⟨member, kept⟩, named, held⟩
    exact ⟨⟨edge, member, named, held⟩, named ▸ kept⟩

@[simp]
theorem edgeMap_getOrCreateNode (manager : PetgraphStableDiGraphManager D) (token : Address) :
    (manager.getOrCreateNode token).2.edgeMap = manager.edgeMap := by
  cases known : manager.nodeMap.lookup token <;> simp only [getOrCreateNode, findNode, known]

private theorem getOrCreateNode_exact (exact : manager.Exact) (token : Address) :
    (manager.getOrCreateNode token).2.Exact ∧
      (manager.getOrCreateNode token).2.graph.nodes[(manager.getOrCreateNode token).1]? =
        some token ∧
      NodesKept manager.graph (manager.getOrCreateNode token).2.graph := by
  cases known : manager.nodeMap.lookup token with
  | some node =>
    rw [show manager.getOrCreateNode token = (node, manager) by
      simp only [getOrCreateNode, findNode, known]]
    exact ⟨exact, (exact.nodes token node).mp known, fun _ _ holds => holds⟩
  | none =>
    have kept := nodesKept_addNode manager.graph token
    rw [show manager.getOrCreateNode token = ((manager.graph.addNode token).1,
        { manager with
          graph := (manager.graph.addNode token).2
          nodeMap := manager.nodeMap.insert token (manager.graph.addNode token).1 }) by
      simp only [getOrCreateNode, findNode, known]]
    refine ⟨⟨fun other node => ?_, fun held index => ?_⟩, ?_, kept⟩
    · rw [StableDiGraph.getElem?_addNode, ← exact.nodes, lookup_insert_ite]
      by_cases same : other = token
      · subst same
        simp [known, StableDiGraph.addNode, eq_comm]
      · simp [same]
    · have label : ∀ edge ∈ manager.graph.edges,
          edgeLabel (manager.graph.addNode token).2 edge = edgeLabel manager.graph edge := by
        intro edge member
        obtain ⟨source, target⟩ := manager.graph.ends_lt edge member
        rw [edgeLabel, edgeLabel, kept.tokenOf source, kept.tokenOf target]
      refine (exact.edges held index).trans (exists_congr fun edge => and_congr_right ?_)
      intro member
      rw [label edge member]
    · exact (manager.graph.getElem?_addNode token token _).mpr (.inr ⟨rfl, rfl⟩)

/-- The manager with the edges of one component as given. -/
def track (manager : PetgraphStableDiGraphManager D) (id : ComponentId)
    (edges : Map SwapDirection Nat) : PetgraphStableDiGraphManager D :=
  { manager with edgeMap := manager.edgeMap.insert id edges }

private theorem trackedEdge_track (manager : PetgraphStableDiGraphManager D) (id : ComponentId)
    (edges : Map SwapDirection Nat) (held : HeldDirection) :
    (manager.track id edges).trackedEdge held =
      if held.1 = id then edges.lookup held.2 else manager.trackedEdge held := by
  rw [trackedEdge, track, lookup_insert_ite]
  split <;> rfl

private theorem getOrCreateNode_track (id : ComponentId) (edges : Map SwapDirection Nat)
    (token : Address) :
    (manager.track id edges).getOrCreateNode token =
      ((manager.getOrCreateNode token).1, (manager.getOrCreateNode token).2.track id edges) := by
  cases known : manager.nodeMap.lookup token <;> simp only [getOrCreateNode, findNode, track, known]

variable {id : ComponentId} {edges : Map SwapDirection Nat}

/-- An edge for a direction that the component lacks. -/
theorem Exact.addEdge (exact : (manager.track id edges).Exact) {source target : NodeIndex}
    {direction : SwapDirection} (leaves : manager.graph.nodes[source]? = some direction.1)
    (enters : manager.graph.nodes[target]? = some direction.2)
    (absent : edges.lookup direction = none) :
    (track { manager with graph := (manager.graph.addEdge source target (EdgeData.new id)).2 } id
      (edges.insert direction
        (manager.graph.addEdge source target (EdgeData.new id)).1)).Exact := by
  have inside : source < manager.graph.nodes.length ∧ target < manager.graph.nodes.length :=
    ⟨(List.getElem?_eq_some_iff.mp leaves).1, (List.getElem?_eq_some_iff.mp enters).1⟩
  obtain ⟨index_eq, edges_eq, nodes_eq⟩ :=
    StableDiGraph.addEdge_of_inside (EdgeData.new id : EdgeData D) inside
  generalize manager.graph.addEdge source target (EdgeData.new id) = added at *
  have label : ∀ edge, edgeLabel added.2 edge = edgeLabel manager.graph edge := by
    simp [edgeLabel, tokenOf, nodes_eq]
  have newLabel : edgeLabel manager.graph
      ⟨manager.graph.nextIndex, source, target, EdgeData.new id⟩ = (id, direction) := by
    simp [edgeLabel, tokenOf_eq leaves, tokenOf_eq enters, EdgeData.new]
  refine ⟨?_, fun held index => ?_⟩
  · change ∀ token node, _ ↔ added.2.nodes[node]? = some token
    rw [nodes_eq]
    exact exact.nodes
  · have before := exact.edges held index
    rw [trackedEdge_track] at before ⊢
    change _ ↔ ∃ edge ∈ added.2.edges, edge.index = index ∧ edgeLabel added.2 edge = held
    rw [edges_eq, exists_mem_cons_iff, index_eq]
    simp only [label, newLabel]
    refine Iff.trans ?_ (or_congr_right before)
    by_cases same : (id, direction) = held
    · subst same
      simp [absent]
    · by_cases mine : held.1 = id
      · have other : held.2 ≠ direction := fun equal => same (by rw [← mine, ← equal])
        simp [mine, AList.lookup_insert_ne other, same]
      · simp [mine, same, trackedEdge]

/-- Adding a direction, unless the component has it. -/
theorem addDirection_exact (exact : (manager.track id edges).Exact) (direction : SwapDirection) :
    let added := addDirection id (manager, edges) direction
    (added.1.track id added.2).Exact ∧ added.1.edgeMap = manager.edgeMap ∧
      ∀ other, (added.2.lookup other).isSome = true ↔
        (edges.lookup other).isSome = true ∨ other = direction := by
  by_cases has : (edges.lookup direction).isSome = true
  · rw [show addDirection id (manager, edges) direction = (manager, edges) by
      simp only [addDirection, has, if_true]]
    refine ⟨exact, rfl, fun other => ⟨.inl, fun either => ?_⟩⟩
    rcases either with held | rfl
    · exact held
    · exact has
  · obtain ⟨exact₁, leaves, -⟩ := getOrCreateNode_exact exact direction.1
    rw [getOrCreateNode_track] at exact₁ leaves
    obtain ⟨exact₂, enters, kept⟩ := getOrCreateNode_exact exact₁ direction.2
    rw [getOrCreateNode_track] at exact₂ enters kept
    rw [Bool.not_eq_true, Option.isSome_eq_false_iff, Option.isNone_iff_eq_none] at has
    have added := exact₂.addEdge (kept _ _ leaves) enters has
    simp only [addDirection, has, Option.isSome_none, Bool.false_eq_true, if_false]
    refine ⟨added, by simp, fun other => ?_⟩
    by_cases same : other = direction
    · subst same
      simp
    · simp [AList.lookup_insert_ne same, same]

/-- Adding directions one after another. -/
theorem foldl_addDirection_exact (id : ComponentId) (directions : List SwapDirection)
    (exact : (manager.track id edges).Exact) :
    let added := directions.foldl (addDirection id) (manager, edges)
    (added.1.track id added.2).Exact ∧ added.1.edgeMap = manager.edgeMap ∧
      ∀ other, (added.2.lookup other).isSome = true ↔
        (edges.lookup other).isSome = true ∨ other ∈ directions := by
  induction directions generalizing manager edges with
  | nil => exact ⟨exact, rfl, by simp⟩
  | cons direction rest ih =>
    obtain ⟨exact₁, maps₁, holds₁⟩ := addDirection_exact exact direction
    obtain ⟨exact₂, maps₂, holds₂⟩ := ih exact₁
    refine ⟨exact₂, maps₂.trans maps₁, fun other => ?_⟩
    rw [mem_cons, ← or_assoc, ← holds₁]
    exact holds₂ other

private theorem foldl_dropDirection (stale : List (SwapDirection × Nat))
    (manager : PetgraphStableDiGraphManager D) (edges : Map SwapDirection Nat) :
    stale.foldl (fun state entry => dropDirection state.1 state.2 entry) (manager, edges) =
      ({ manager with
          graph := (stale.map Prod.snd).foldl (fun graph index => graph.removeEdge index)
            manager.graph },
        (stale.map Prod.fst).foldl (fun map gone => map.erase gone) edges) := by
  induction stale generalizing manager edges with
  | nil => rfl
  | cons entry rest ih => rw [foldl_cons, ih]; rfl

variable (manager id) in
private theorem lookup_getD_trackedEdge (direction : SwapDirection) :
    ((manager.edgeMap.lookup id).getD ∅).lookup direction =
      manager.trackedEdge (id, direction) := by
  rw [trackedEdge]
  cases manager.edgeMap.lookup id <;> rfl

variable (manager id) in
/-- The manager and the edges of one component without its stale directions. -/
def trimmed
    (directions : List SwapDirection) : PetgraphStableDiGraphManager D × Map SwapDirection Nat :=
  let edges := (manager.edgeMap.lookup id).getD ∅
  let stale := staleDirections edges directions
  ({ manager with
      graph := (stale.map Prod.snd).foldl (fun graph index => graph.removeEdge index) manager.graph
      edgeMap := manager.edgeMap.erase id },
    (stale.map Prod.fst).foldl (fun map gone => map.erase gone) edges)

/-- Without its stale directions a component is still tracked exactly. -/
theorem Exact.dropStale (exact : manager.Exact) (id : ComponentId)
    (directions : List SwapDirection) :
    ((manager.trimmed id directions).1.track id (manager.trimmed id directions).2).Exact := by
  unfold trimmed
  extract_lets edges stale
  have listed : ∀ entry ∈ stale, manager.trackedEdge (id, entry.1) = some entry.2 := by
    intro entry member
    rw [← lookup_getD_trackedEdge]
    exact (mem_staleDirections.mp member).1
  refine exact.forget id stale listed rfl rfl fun held => ?_
  rw [trackedEdge_track, lookup_foldl_erase]
  by_cases mine : held.1 = id
  · have lookup : edges.lookup held.2 = manager.trackedEdge held := by
      rw [lookup_getD_trackedEdge, ← mine]
    simp only [mine, lookup, if_true, true_and]
  · simp [mine, trackedEdge, AList.lookup_erase_ne mine]

private theorem lookup_trimmed_isSome {directions : List SwapDirection} {direction : SwapDirection}
    (left : ((manager.trimmed id directions).2.lookup direction).isSome = true) :
    direction ∈ directions := by
  rw [trimmed, lookup_foldl_erase] at left
  split at left
  · simp at left
  · rename_i stays
    obtain ⟨index, found⟩ := Option.isSome_iff_exists.mp left
    by_contra stale
    exact stays (mem_map.mpr ⟨_, mem_staleDirections.mpr ⟨found, stale⟩, rfl⟩)

private theorem syncComponentEdges_exact (exact : manager.Exact) (id : ComponentId)
    (directions : List SwapDirection) :
    (manager.syncComponentEdges id directions).Exact ∧
      ∀ held, ((manager.syncComponentEdges id directions).trackedEdge held).isSome = true ↔
        if held.1 = id then held.2 ∈ directions
        else (manager.trackedEdge held).isSome = true := by
  obtain ⟨synced, maps, holds⟩ :=
    foldl_addDirection_exact id directions (exact.dropStale id directions)
  simp only [syncComponentEdges, foldl_dropDirection]
  refine ⟨synced, fun held => ?_⟩
  change ((directions.foldl (addDirection id) (manager.trimmed id directions)).1.track id _
    |>.trackedEdge held).isSome = true ↔ _
  rw [trackedEdge_track]
  by_cases mine : held.1 = id
  · rw [if_pos mine, if_pos mine]
    exact (holds held.2).trans
      ⟨fun either => either.elim lookup_trimmed_isSome fun listed => listed, .inr⟩
  · rw [if_neg mine, if_neg mine, trackedEdge, maps]
    simp [trimmed, trackedEdge, AList.lookup_erase_ne mine]

private theorem removeComponentEdges_exact (exact : manager.Exact) (id : ComponentId) :
    (manager.removeComponentEdges id).1.Exact ∧
      ∀ held, ((manager.removeComponentEdges id).1.trackedEdge held).isSome = true ↔
        held.1 ≠ id ∧ (manager.trackedEdge held).isSome = true := by
  cases known : manager.edgeMap.lookup id with
  | none =>
    simp only [removeComponentEdges, known]
    refine ⟨exact, fun held => ⟨fun tracked => ⟨fun mine => ?_, tracked⟩, And.right⟩⟩
    rw [trackedEdge, mine, known] at tracked
    cases tracked
  | some edges =>
    have mine : ∀ held, held.1 = id → manager.trackedEdge held = edges.lookup held.2 := by
      intro held same
      rw [trackedEdge, same, known]
      rfl
    have tracked : ∀ held, (manager.removeComponentEdges id).1.trackedEdge held =
        if held.1 = id then none else manager.trackedEdge held := by
      intro held
      simp only [removeComponentEdges, known, trackedEdge, lookup_erase_ite]
      split <;> rfl
    refine ⟨exact.forget id (edges.entries.map fun entry => (entry.1, entry.2)) ?_ ?_ ?_
      fun held => ?_, fun held => ?_⟩
    · intro entry member
      obtain ⟨held, inside, rfl⟩ := mem_map.mp member
      exact (mine (id, held.1) rfl).trans (AList.mem_lookup_iff.mpr inside)
    · simp only [removeComponentEdges, known]
    · simp only [removeComponentEdges, known, foldl_map]
    · rw [tracked]
      by_cases same : held.1 = id
      · rw [if_pos same]
        split
        · rfl
        · rename_i absent
          refine (Option.eq_none_iff_forall_ne_some.mpr fun index found => absent ⟨same, ?_⟩).symm
          rw [mine held same] at found
          simpa using ⟨index, AList.mem_lookup_iff.mp found⟩
      · simp [same]
    · rw [tracked]
      split <;> simp_all

private theorem foldl_getOrCreateNode_exact (tokens : List Address) (exact : manager.Exact) :
    let added := tokens.foldl (fun manager token => (manager.getOrCreateNode token).2) manager
    added.Exact ∧ added.edgeMap = manager.edgeMap := by
  induction tokens generalizing manager with
  | nil => exact ⟨exact, rfl⟩
  | cons token rest ih =>
    obtain ⟨exact₁, -⟩ := getOrCreateNode_exact exact token
    obtain ⟨exact₂, maps⟩ := ih exact₁
    exact ⟨exact₂, maps.trans (edgeMap_getOrCreateNode manager token)⟩

/-- **Adding a component.** One with two tokens or more gets the listed directions; any other
changes nothing. -/
theorem addComponent_exact (exact : manager.Exact) (component : Listing) :
    (manager.addComponent component).Exact ∧
      ∀ held, held ∈ (manager.addComponent component).edgeSet ↔
        if held.1 = component.1 ∧ 2 ≤ component.2.tokens.length then
          held.2 ∈ component.2.swapDirections
        else held ∈ manager.edgeSet := by
  unfold addComponent
  split
  · rename_i few
    exact ⟨exact, fun held => by rw [if_neg (by omega)]⟩
  · rename_i enough
    obtain ⟨withTokens, maps⟩ := foldl_getOrCreateNode_exact
      (component.2.tokens.insertionSort (· ≤ ·)) exact
    obtain ⟨synced, holds⟩ :=
      syncComponentEdges_exact withTokens component.1 component.2.swapDirections
    refine ⟨synced, fun held => ?_⟩
    rw [synced.mem_edgeSet, holds, exact.mem_edgeSet, trackedEdge, maps, ← trackedEdge]
    simp only [Nat.not_lt.mp enough, and_true]

/-- **Removing a component.** Its directions go, the others stay. -/
theorem removeComponentEdges_edgeSet (exact : manager.Exact) (id : ComponentId) :
    (manager.removeComponentEdges id).1.Exact ∧
      ∀ held, held ∈ (manager.removeComponentEdges id).1.edgeSet ↔
        held.1 ≠ id ∧ held ∈ manager.edgeSet := by
  obtain ⟨removed, holds⟩ := removeComponentEdges_exact exact id
  exact ⟨removed, fun held => by rw [removed.mem_edgeSet, holds, exact.mem_edgeSet]⟩

/-- The nodes of a new graph are exact. -/
theorem foldl_addNode_exact (tokens : List Address) (distinct : tokens.Nodup)
    (exact : manager.Exact) (fresh : ∀ token ∈ tokens, manager.nodeMap.lookup token = none) :
    let added := tokens.foldl (fun (manager : PetgraphStableDiGraphManager D) token =>
      let (node, graph) := manager.graph.addNode token
      { manager with graph := graph, nodeMap := manager.nodeMap.insert token node }) manager
    added.Exact ∧ added.edgeMap = manager.edgeMap := by
  induction tokens generalizing manager with
  | nil => exact ⟨exact, rfl⟩
  | cons token rest ih =>
    obtain ⟨apart, distinct⟩ := nodup_cons.mp distinct
    have known := fresh token (by simp)
    obtain ⟨exact₁, -⟩ := getOrCreateNode_exact exact token
    simp only [getOrCreateNode, findNode, known] at exact₁
    refine ih distinct exact₁ fun other member => ?_
    have differs : other ≠ token := fun same => apart (same ▸ member)
    rw [AList.lookup_insert_ne differs]
    exact fresh other (mem_cons_of_mem _ member)

end PetgraphStableDiGraphManager

end Fynd
