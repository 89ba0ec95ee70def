import Fynd.BellmanFord.LinearMarket
import Fynd.Foundation.BreadthFirst

/-!
# Which edges a subgraph keeps

The hop map is a breadth-first search from the destination along outgoing edges, and
the subgraph a second one from the source token that the map prunes. Together they
keep exactly the edges within a hop budget counted from the destination
(`mem_getSubgraph_iff`). Hops counted from the destination are hops to it when every
pool is entered as a pair of opposite edges, and not otherwise.
-/

namespace Fynd

open Foundation List

variable {D : Type} {graph : TokenDiGraph D} {constraints : ResolvedRouteConstraints}

/-! ## Counting hops -/

section Count

variable (graph constraints) in
/-- The nodes one allowed hop away. -/
def crossableTargets (endpoints : NodeIndex × NodeIndex) (node : NodeIndex) : List NodeIndex :=
  ((graph.outgoing node).filter fun edge => canCross graph constraints edge endpoints).map
    StableEdge.target

variable (graph constraints) in
/-- What the count expands a node to: nothing at the last level. -/
def countExpand (endpoints : NodeIndex × NodeIndex) (maxHops : Nat) (node : NodeIndex)
    (depth : Nat) : List NodeIndex :=
  if depth < maxHops then crossableTargets graph constraints endpoints node else []

variable {endpoints : NodeIndex × NodeIndex} {maxHops depth : Nat} {tokenOut node : NodeIndex}
  {hops : Map NodeIndex Nat} {next frontier : List NodeIndex}
  {processed queue rest : List (NodeIndex × Nat)}

variable (graph constraints endpoints depth) in
/-- Counting the edges of a node adds the targets not counted before, at the given depth. -/
theorem foldl_countEdge (edges : List (PoolEdge D)) (hops : Map NodeIndex Nat)
    (next : List NodeIndex) :
    let fresh := unseen hops.keys
      ((edges.filter fun edge => canCross graph constraints edge endpoints).map StableEdge.target)
    let counted := edges.foldl (countEdge graph constraints endpoints depth) (hops, next)
    counted.2 = next ++ fresh ∧
      ∀ node, counted.1.lookup node = if node ∈ fresh then some depth else hops.lookup node := by
  induction edges generalizing hops next with
  | nil => simp [unseen]
  | cons edge rest ih =>
    by_cases crossed : canCross graph constraints edge endpoints
    · by_cases counted : edge.target ∈ hops.keys
      · have known : (hops.lookup edge.target).isSome :=
          AList.lookup_isSome.mpr (AList.mem_keys.mpr counted)
        simpa [countEdge, known, crossed, unseen, counted] using ih hops next
      · have unknown : hops.lookup edge.target = none :=
          AList.lookup_eq_none.mpr fun known => counted (AList.mem_keys.mp known)
        have keys : ∀ node, node ∈ (hops.insert edge.target depth).keys ↔
            node ∈ edge.target :: hops.keys := by
          intro node
          rw [← AList.mem_keys, AList.mem_insert, mem_cons, AList.mem_keys]
        obtain ⟨queued, looked⟩ := ih (hops.insert edge.target depth) (next ++ [edge.target])
        simp only [unseen_congr keys] at queued looked
        simp only [foldl_cons, countEdge, unknown, crossed, filter_cons, map_cons, unseen,
          counted, ↓reduceIte, Option.isSome_none, Bool.not_true, Bool.or_false,
          Bool.false_eq_true]
        refine ⟨by rw [queued]; simp, fun node => ?_⟩
        rw [looked]
        rw [lookup_insert_ite]
        by_cases same : node = edge.target
        · subst same; simp [mem_unseen]
        · simp [same]
    · simpa [countEdge, crossed] using ih hops next

variable (graph constraints endpoints maxHops tokenOut processed queue) in
/-- A count in progress: the map holds what the search has seen, at the depth it was seen. -/
structure Counting (hops : Map NodeIndex Nat) : Prop where
  search : BreadthFirst (countExpand graph constraints endpoints maxHops) tokenOut processed queue
  tracks : ∀ node depth, hops.lookup node = some depth ↔ (node, depth) ∈ processed ++ queue

namespace Counting

private theorem mem_keys
    (counting : Counting graph constraints endpoints maxHops tokenOut processed queue hops) :
    node ∈ hops.keys ↔ node ∈ (processed ++ queue).map Prod.fst := by
  rw [← AList.mem_keys, ← AList.lookup_isSome, Option.isSome_iff_exists]
  simp [counting.tracks, exists_or]

/-- Counting one node of the frontier. -/
theorem countNode
    (counting : Counting graph constraints endpoints maxHops tokenOut processed
      ((node, depth) :: rest) hops) (shallow : depth < maxHops) (next : List NodeIndex) :
    let counted := (graph.outgoing node).foldl (countEdge graph constraints endpoints (depth + 1))
      (hops, next)
    ∃ fresh, counted.2 = next ++ fresh ∧
      Counting graph constraints endpoints maxHops tokenOut (processed ++ [(node, depth)])
        (rest ++ fresh.map fun next => (next, depth + 1)) counted.1 := by
  obtain ⟨queued, looked⟩ := foldl_countEdge graph constraints endpoints (depth + 1)
    (graph.outgoing node) hops next
  refine ⟨_, queued, ?_, fun other level => ?_⟩
  · have popped := counting.search.popUnseen fun other => counting.mem_keys
    rwa [countExpand, if_pos shallow] at popped
  · rw [looked]
    split
    · rename_i new
      have uncounted := (mem_unseen.mp new).2
      rw [counting.mem_keys] at uncounted
      grind
    · rename_i old
      rw [counting.tracks]
      grind

/-- Counting a frontier moves it into the processed part and leaves the next one waiting. -/
theorem countFrontier
    (counting : Counting graph constraints endpoints maxHops tokenOut processed
      ((frontier.map fun node => (node, depth)) ++ next.map fun node => (node, depth + 1)) hops)
    (shallow : depth < maxHops) :
    let counted := frontier.foldl (fun level node => (graph.outgoing node).foldl
      (countEdge graph constraints endpoints (depth + 1)) level) (hops, next)
    ∃ done, Counting graph constraints endpoints maxHops tokenOut done
      (counted.2.map fun node => (node, depth + 1)) counted.1 := by
  induction frontier generalizing processed hops next with
  | nil => exact ⟨processed, by simpa using counting⟩
  | cons node rest ih =>
    rw [map_cons, cons_append] at counting
    obtain ⟨fresh, queued, counted⟩ := countNode counting shallow next
    rw [append_assoc, ← map_append, ← queued] at counted
    exact ih counted

/-- Counting level after level ends with everything within `maxHops` in the map. -/
theorem countLevels {levels : Nat}
    (counting : Counting graph constraints endpoints maxHops tokenOut processed
      (frontier.map fun node => (node, depth)) hops) (budget : depth + levels = maxHops) :
    ∃ done, Counting graph constraints endpoints maxHops tokenOut done []
      (Fynd.countLevels graph constraints endpoints levels (depth + 1) hops frontier) := by
  induction levels generalizing depth processed frontier hops with
  | zero =>
    refine ⟨_, counting.search.finish ?_, by simpa [Fynd.countLevels] using counting.tracks⟩
    intro entry member
    obtain ⟨node, -, rfl⟩ := mem_map.mp member
    exact if_neg (by omega)
  | succ levels ih =>
    have start : Counting graph constraints endpoints maxHops tokenOut processed
        ((frontier.map fun node => (node, depth)) ++ [].map fun node => (node, depth + 1))
        hops := by simpa using counting
    obtain ⟨done, next⟩ := countFrontier start (by omega)
    exact ih next (by omega)

end Counting

variable (graph constraints) in
/-- The hop map holds exactly the nodes within `maxHops` of the destination along outgoing edges,
each at its least depth. -/
theorem getHopsToReach_spec (tokenIn tokenOut : NodeIndex) (maxHops : Nat) :
    (∀ node depth, (getHopsToReach graph constraints tokenIn tokenOut maxHops).lookup node =
        some depth →
      ReachedAt (countExpand graph constraints (tokenIn, tokenOut) maxHops) tokenOut node depth) ∧
    ∀ node depth,
      ReachedAt (countExpand graph constraints (tokenIn, tokenOut) maxHops) tokenOut node depth →
      ∃ level ≤ depth, (getHopsToReach graph constraints tokenIn tokenOut maxHops).lookup node =
        some level := by
  have start : Counting graph constraints (tokenIn, tokenOut) maxHops tokenOut []
      ([tokenOut].map fun node => (node, 0)) ((∅ : Map NodeIndex Nat).insert tokenOut 0) := by
    refine ⟨BreadthFirst.init _ _, fun node depth => ?_⟩
    rw [lookup_insert_ite]
    by_cases same : node = tokenOut
    · simp [same, eq_comm]
    · simp [same]
  obtain ⟨done, counting⟩ := start.countLevels (Nat.zero_add maxHops)
  have looked : ∀ node depth, (getHopsToReach graph constraints tokenIn tokenOut maxHops).lookup
      node = some depth ↔ (node, depth) ∈ done := fun node depth => by
    rw [← append_nil done]
    exact counting.tracks node depth
  refine ⟨fun node depth found => ?_, fun node depth reached => ?_⟩
  · exact counting.search.sound (node, depth) (by simpa using (looked node depth).mp found)
  · have shrinks : ∀ node shallow deep, shallow ≤ deep →
        countExpand graph constraints (tokenIn, tokenOut) maxHops node deep ⊆
          countExpand graph constraints (tokenIn, tokenOut) maxHops node shallow := by
      intro node shallow deep less next child
      unfold countExpand at child ⊢
      split at child
      · rwa [if_pos (by omega)]
      · simp at child
    obtain ⟨level, bound, found⟩ := counting.search.complete shrinks reached
    exact ⟨level, bound, (looked node level).mpr found⟩

end Count

/-! ## The pruned walk -/

section Walk

variable (graph constraints) in
/-- Whether the walk keeps an edge it meets at a depth. -/
def passes (endpoints : NodeIndex × Option NodeIndex) (hopsToTokenOut : Option (Map NodeIndex Nat))
    (maxHops depth : Nat) (edge : PoolEdge D) : Bool :=
  canCross graph constraints edge (endpoints.1, endpoints.2.getD endpoints.1) &&
    withinBudget hopsToTokenOut maxHops depth edge.target

variable (graph constraints) in
/-- What the walk expands a node to: the targets of the edges it keeps there. -/
def walkExpand (endpoints : NodeIndex × Option NodeIndex)
    (hopsToTokenOut : Option (Map NodeIndex Nat)) (maxHops : Nat) (node : NodeIndex)
    (depth : Nat) : List NodeIndex :=
  if depth < maxHops then
    ((graph.outgoing node).filter
      (passes graph constraints endpoints hopsToTokenOut maxHops depth)).map StableEdge.target
  else []

variable {endpoints : NodeIndex × Option NodeIndex} {hopsToTokenOut : Option (Map NodeIndex Nat)}
  {maxHops depth : Nat} {node : NodeIndex} {walk : SubgraphWalk}
  {processed rest : List (NodeIndex × Nat)}

private theorem mem_walkExpand {next : NodeIndex} :
    next ∈ walkExpand graph constraints endpoints hopsToTokenOut maxHops node depth ↔
      depth < maxHops ∧ ∃ edge ∈ graph.outgoing node,
        passes graph constraints endpoints hopsToTokenOut maxHops depth edge ∧
          edge.target = next := by
  unfold walkExpand
  split <;> simp [*, and_assoc]

/-- A kept edge is listed under its source, and its target is queued when it is new. -/
theorem keepEdge_of_passes (walk : SubgraphWalk) (node : NodeIndex) {edge : PoolEdge D}
    (passed : passes graph constraints endpoints hopsToTokenOut maxHops depth edge) :
    let walked := keepEdge graph constraints endpoints hopsToTokenOut maxHops node depth walk edge
    walked.queue =
        walk.queue ++ ((unseen walk.visited [edge.target]).map fun next => (next, depth + 1)) ∧
      (∀ other, other ∈ walked.visited ↔ other ∈ edge.target :: walk.visited) ∧
      ∀ source, (walked.kept.adjacency.lookup source).getD [] =
        (walk.kept.adjacency.lookup source).getD [] ++
          if source = node then [(edge.target, edge.weight.componentId)] else [] := by
  obtain ⟨crossed, budget⟩ := Bool.and_eq_true_iff.mp passed
  simp only [keepEdge, crossed, budget, Bool.not_true, Bool.false_eq_true, ↓reduceIte]
  refine ⟨?_, fun other => by simp, fun source => ?_⟩
  · by_cases seen : edge.target ∈ walk.visited <;> simp [unseen, seen]
  · rw [lookup_insert_ite]
    by_cases same : source = node
    · subst same; simp
    · simp [same]

private theorem keepEdge_of_not_passes {edge : PoolEdge D}
    (refused : ¬ passes graph constraints endpoints hopsToTokenOut maxHops depth edge) :
    keepEdge graph constraints endpoints hopsToTokenOut maxHops node depth walk edge = walk := by
  unfold keepEdge
  grind [passes]

variable (graph constraints endpoints hopsToTokenOut maxHops node depth) in
/-- Walking the edges of a node keeps those that pass, under that node, and queues the targets
not seen before. -/
theorem foldl_keepEdge (edges : List (PoolEdge D)) (walk : SubgraphWalk) :
    let kept := edges.filter (passes graph constraints endpoints hopsToTokenOut maxHops depth)
    let walked := edges.foldl
      (keepEdge graph constraints endpoints hopsToTokenOut maxHops node depth) walk
    walked.queue = walk.queue ++
        ((unseen walk.visited (kept.map StableEdge.target)).map fun next => (next, depth + 1)) ∧
      (∀ other, other ∈ walked.visited ↔
        other ∈ walk.visited ∨ other ∈ kept.map StableEdge.target) ∧
      ∀ source, (walked.kept.adjacency.lookup source).getD [] =
        (walk.kept.adjacency.lookup source).getD [] ++
          if source = node then kept.map fun edge => (edge.target, edge.weight.componentId)
          else [] := by
  induction edges generalizing walk with
  | nil => simp [unseen]
  | cons edge rest ih =>
    by_cases passed : passes graph constraints endpoints hopsToTokenOut maxHops depth edge
    · obtain ⟨queuedHere, visitedHere, adjacencyHere⟩ := keepEdge_of_passes walk node passed
      obtain ⟨queued, visited, adjacency⟩ := ih
        (keepEdge graph constraints endpoints hopsToTokenOut maxHops node depth walk edge)
      simp only [foldl_cons, filter_cons, passed, ↓reduceIte, map_cons]
      refine ⟨?_, fun other => ?_, fun source => ?_⟩
      · rw [queued, queuedHere, unseen_congr visitedHere,
          unseen_cons walk.visited edge.target (List.map _ _), map_append, append_assoc]
      · rw [visited, visitedHere]
        simp only [mem_cons]
        tauto
      · rw [adjacency, adjacencyHere]
        split <;> simp
    · simpa [keepEdge_of_not_passes passed, passed] using ih walk

variable (graph constraints endpoints hopsToTokenOut maxHops processed) in
/-- A walk in progress: the queue is that of a breadth-first search, and the adjacency lists the
edges that pass at the nodes processed so far. -/
structure Walking (walk : SubgraphWalk) : Prop where
  search : BreadthFirst (walkExpand graph constraints endpoints hopsToTokenOut maxHops) endpoints.1
    processed walk.queue
  seen : ∀ node, node ∈ walk.visited ↔ node ∈ (processed ++ walk.queue).map Prod.fst
  adjacency : ∀ source hop, hop ∈ (walk.kept.adjacency.lookup source).getD [] ↔
    ∃ depth, (source, depth) ∈ processed ∧ depth < maxHops ∧ ∃ edge ∈ graph.outgoing source,
      passes graph constraints endpoints hopsToTokenOut maxHops depth edge ∧
        (edge.target, edge.weight.componentId) = hop

namespace Walking

variable (graph constraints) in
private theorem start (endpoints : NodeIndex × Option NodeIndex)
    (hopsToTokenOut : Option (Map NodeIndex Nat)) (maxHops : Nat) :
    Walking graph constraints endpoints hopsToTokenOut maxHops [] (startWalk endpoints.1) where
  search := BreadthFirst.init _ _
  seen := by simp [startWalk]
  adjacency := by simp [startWalk]

variable (walking : Walking graph constraints endpoints hopsToTokenOut maxHops processed walk)
include walking

/-- One turn of the walk. -/
theorem walkNode (queue : walk.queue = (node, depth) :: rest) :
    Walking graph constraints endpoints hopsToTokenOut maxHops (processed ++ [(node, depth)])
      (Fynd.walkNode graph constraints endpoints hopsToTokenOut maxHops { walk with queue := rest }
        node depth) := by
  obtain ⟨search, seen, adjacency⟩ := walking
  rw [queue] at search seen
  have popped := search.popUnseen seen
  by_cases shallow : depth < maxHops
  · obtain ⟨queued, visited, kept⟩ := foldl_keepEdge graph constraints endpoints hopsToTokenOut
      maxHops depth node (graph.outgoing node) { walk with queue := rest }
    simp only [Fynd.walkNode, Nat.not_le.mpr shallow, ↓reduceIte]
    refine ⟨?_, fun other => ?_, fun source hop => ?_⟩
    · rw [queued]
      simpa [walkExpand, shallow] using popped
    · rw [visited, seen, queued]
      simp only [map_append, mem_append, map_map, Function.comp_def, map_id', mem_unseen, seen]
      grind
    · rw [kept, mem_append, adjacency]
      by_cases same : source = node
      · subst same
        simp only [↓reduceIte, mem_map, mem_filter, mem_append, mem_singleton]
        grind
      · simp only [same, ↓reduceIte, not_mem_nil, or_false, mem_append, mem_singleton,
          Prod.mk.injEq, false_and, or_false]
  · have barren : walkExpand graph constraints endpoints hopsToTokenOut maxHops node depth = [] :=
      if_neg shallow
    simp only [Fynd.walkNode, Nat.not_lt.mp shallow, ↓reduceIte]
    refine ⟨?_, fun other => ?_, fun source hop => ?_⟩
    · simpa [barren, unseen] using popped
    · rw [seen]
      simp
    · rw [adjacency]
      simp only [mem_append, mem_singleton, Prod.mk.injEq]
      grind

/-- As many turns as there are nodes empty the queue. -/
theorem walkQueue (sourceInside : endpoints.1 < graph.nodes.length) {turns : Nat}
    (enough : graph.nodes.length ≤ processed.length + turns) :
    let walked := Fynd.walkQueue graph constraints endpoints hopsToTokenOut maxHops turns walk
    ∃ done, Walking graph constraints endpoints hopsToTokenOut maxHops done walked ∧
      walked.queue = [] := by
  have inside : ∀ node depth, ∀ next ∈ walkExpand graph constraints endpoints hopsToTokenOut
      maxHops node depth, next < graph.nodes.length := by
    intro node depth next child
    obtain ⟨-, edge, leaves, -, rfl⟩ := mem_walkExpand.mp child
    exact (graph.ends_lt edge (StableDiGraph.mem_outgoing.mp leaves).1).2
  induction turns generalizing processed walk with
  | zero =>
    have seen := walking.search.length_le sourceInside inside
    have empty : walk.queue.length = 0 := by omega
    exact ⟨processed, walking, length_eq_zero_iff.mp empty⟩
  | succ turns ih =>
    unfold Fynd.walkQueue
    cases queue : walk.queue with
    | nil => exact ⟨processed, walking, queue⟩
    | cons entry rest =>
      exact ih (walking.walkNode queue) (by simp; omega)

end Walking

/-- A subgraph lists a hop under its source. -/
def Keeps (subgraph : Option Subgraph) (source : NodeIndex) (hop : NodeIndex × ComponentId) :
    Prop :=
  ∃ kept ∈ subgraph, hop ∈ (kept.adjacency.lookup source).getD []

instance (subgraph : Option Subgraph) (source : NodeIndex) (hop : NodeIndex × ComponentId) :
    Decidable (Keeps subgraph source hop) := by
  unfold Keeps
  infer_instance

private theorem passes_of_le {shallow deep : Nat} (less : shallow ≤ deep) {edge : PoolEdge D}
    (passed : passes graph constraints endpoints hopsToTokenOut maxHops deep edge) :
    passes graph constraints endpoints hopsToTokenOut maxHops shallow edge := by
  unfold passes withinBudget at passed ⊢
  grind

/-- The subgraph keeps an edge exactly when it passes at some depth at which the walk can reach
its source. -/
theorem keeps_getSubgraphWithHopMap_iff (sourceInside : endpoints.1 < graph.nodes.length)
    {source : NodeIndex} {hop : NodeIndex × ComponentId} :
    Keeps (getSubgraphWithHopMap graph constraints endpoints hopsToTokenOut maxHops) source hop ↔
      ∃ depth, ReachedAt (walkExpand graph constraints endpoints hopsToTokenOut maxHops)
          endpoints.1 source depth ∧ depth < maxHops ∧
        ∃ edge ∈ graph.outgoing source,
          passes graph constraints endpoints hopsToTokenOut maxHops depth edge ∧
            (edge.target, edge.weight.componentId) = hop := by
  obtain ⟨done, walking, empty⟩ := (Walking.start graph constraints endpoints hopsToTokenOut
    maxHops).walkQueue sourceInside (Nat.le_add_left _ _)
  simp only [Keeps, getSubgraphWithHopMap]
  generalize Fynd.walkQueue graph constraints endpoints hopsToTokenOut maxHops graph.nodes.length
    (startWalk endpoints.1) = walk at walking empty ⊢
  have search := walking.search
  rw [empty] at search
  have listed : (∃ kept ∈ if walk.kept.adjacency.entries.isEmpty then none else some walk.kept,
      hop ∈ (kept.adjacency.lookup source).getD []) ↔
        hop ∈ (walk.kept.adjacency.lookup source).getD [] := by
    split
    · rename_i bare
      have none : walk.kept.adjacency.lookup source = none := by
        simp [AList.lookup, List.isEmpty_iff.mp bare]
      simp [none]
    · simp
  rw [listed, walking.adjacency]
  constructor
  · rintro ⟨depth, processed, rest⟩
    exact ⟨depth, search.sound (source, depth) (by simpa using processed), rest⟩
  · rintro ⟨depth, reached, shallow, edge, leaves, passed, named⟩
    have shrinks : ∀ node shallow deep, shallow ≤ deep →
        walkExpand graph constraints endpoints hopsToTokenOut maxHops node deep ⊆
          walkExpand graph constraints endpoints hopsToTokenOut maxHops node shallow := by
      intro node shallow deep less next child
      obtain ⟨bound, edge, leaves, passed, enters⟩ := mem_walkExpand.mp child
      exact mem_walkExpand.mpr ⟨by omega, edge, leaves, passes_of_le less passed, enters⟩
    obtain ⟨level, less, found⟩ := search.complete shrinks reached
    exact ⟨level, found, by omega, edge, leaves, passes_of_le less passed, named⟩

end Walk

/-! ## Paths and budgets -/

section Paths

variable (graph constraints) in
/-- Allowed edges that follow one another from one node to another. -/
def AllowedPath (endpoints : NodeIndex × NodeIndex) :
    NodeIndex → List (PoolEdge D) → NodeIndex → Prop
  | start, [], finish => start = finish
  | start, edge :: rest, finish =>
    edge ∈ graph.edges ∧ edge.source = start ∧ canCross graph constraints edge endpoints = true ∧
      AllowedPath endpoints edge.target rest finish

variable {endpoints : NodeIndex × NodeIndex} {start middle finish : NodeIndex}
  {path first second : List (PoolEdge D)} {edge : PoolEdge D}
  {tokenIn tokenOut node : NodeIndex} {maxHops depth : Nat}

instance decidableAllowedPath [DecidableEq D] : (start : NodeIndex) →
    (path : List (PoolEdge D)) → (finish : NodeIndex) →
    Decidable (AllowedPath graph constraints endpoints start path finish)
  | start, [], finish => inferInstanceAs (Decidable (start = finish))
  | start, edge :: rest, finish =>
    haveI := decidableAllowedPath edge.target rest finish
    inferInstanceAs (Decidable (edge ∈ graph.edges ∧ edge.source = start ∧
      canCross graph constraints edge endpoints = true ∧
      AllowedPath graph constraints endpoints edge.target rest finish))

private theorem allowedPath_append :
    AllowedPath graph constraints endpoints start (first ++ second) finish ↔
      ∃ middle, AllowedPath graph constraints endpoints start first middle ∧
        AllowedPath graph constraints endpoints middle second finish := by
  induction first generalizing start with
  | nil => simp [AllowedPath]
  | cons edge rest ih =>
    simp only [cons_append, AllowedPath, ih]
    grind

private theorem mem_crossableTargets :
    node ∈ crossableTargets graph constraints endpoints start ↔
      ∃ edge, AllowedPath graph constraints endpoints start [edge] node := by
  simp only [crossableTargets, mem_map, mem_filter, StableDiGraph.mem_outgoing, AllowedPath]
  grind

/-- The count reaches a node at a depth exactly by an allowed path of that length from the
destination. -/
theorem reachedAt_countExpand_iff :
    ReachedAt (countExpand graph constraints endpoints maxHops) tokenOut node depth ↔
      depth ≤ maxHops ∧ ∃ path, AllowedPath graph constraints endpoints tokenOut path node ∧
        path.length = depth := by
  constructor
  · intro reached
    induction reached with
    | start => exact ⟨Nat.zero_le _, [], rfl, rfl⟩
    | hop _ child ih =>
      obtain ⟨-, path, walked, rfl⟩ := ih
      unfold countExpand at child
      split at child
      · obtain ⟨edge, step⟩ := mem_crossableTargets.mp child
        exact ⟨by omega, path ++ [edge], allowedPath_append.mpr ⟨_, walked, step⟩, by simp⟩
      · simp at child
  · rintro ⟨bound, path, walked, rfl⟩
    induction path using List.reverseRecOn generalizing node with
    | nil =>
      obtain rfl : tokenOut = node := walked
      exact .start
    | append_singleton path edge ih =>
      obtain ⟨middle, walked, step⟩ := allowedPath_append.mp walked
      rw [length_append, length_singleton] at bound ⊢
      refine .hop (ih walked (by omega)) ?_
      rw [countExpand, if_pos (by omega)]
      exact mem_crossableTargets.mpr ⟨edge, step⟩

/-- An edge fits the budget at a depth exactly when an allowed path from the destination to its
target is short enough. -/
theorem withinBudget_getHopsToReach_iff :
    withinBudget (some (getHopsToReach graph constraints tokenIn tokenOut maxHops)) maxHops depth
        node = true ↔
      ∃ back, AllowedPath graph constraints (tokenIn, tokenOut) tokenOut back node ∧
        depth + 1 + back.length ≤ maxHops := by
  obtain ⟨sound, complete⟩ := getHopsToReach_spec graph constraints tokenIn tokenOut maxHops
  simp only [withinBudget]
  constructor
  · intro fits
    cases found : (getHopsToReach graph constraints tokenIn tokenOut maxHops).lookup node with
    | none => simp [found] at fits
    | some level =>
      obtain ⟨-, back, walked, rfl⟩ := reachedAt_countExpand_iff.mp (sound node level found)
      exact ⟨back, walked, by simpa [found] using fits⟩
  · rintro ⟨back, walked, fits⟩
    obtain ⟨level, less, found⟩ := complete node back.length
      (reachedAt_countExpand_iff.mpr ⟨by omega, back, walked, rfl⟩)
    simp only [found, decide_eq_true_eq]
    omega

variable (graph constraints) in
/-- The depths at which a walk that stays within the budget can be at a node. The budget counts
the hops from the destination to each node it enters. -/
inductive Budgeted (tokenIn tokenOut : NodeIndex) (maxHops : Nat) : NodeIndex → Nat → Prop
  | start : Budgeted tokenIn tokenOut maxHops tokenIn 0
  | hop {edge : PoolEdge D} {back : List (PoolEdge D)} {depth : Nat} :
      Budgeted tokenIn tokenOut maxHops edge.source depth → edge ∈ graph.edges →
      canCross graph constraints edge (tokenIn, tokenOut) →
      AllowedPath graph constraints (tokenIn, tokenOut) tokenOut back edge.target →
      depth + 1 + back.length ≤ maxHops →
        Budgeted tokenIn tokenOut maxHops edge.target (depth + 1)

variable (graph constraints tokenIn tokenOut maxHops) in
/-- An edge that a walk within the budget can take. -/
def Affordable (edge : PoolEdge D) : Prop :=
  edge ∈ graph.edges ∧ canCross graph constraints edge (tokenIn, tokenOut) ∧
    ∃ depth, Budgeted graph constraints tokenIn tokenOut maxHops edge.source depth ∧
      ∃ back, AllowedPath graph constraints (tokenIn, tokenOut) tokenOut back edge.target ∧
        depth + 1 + back.length ≤ maxHops

private theorem passes_getHopsToReach_iff :
    passes graph constraints (tokenIn, some tokenOut)
        (some (getHopsToReach graph constraints tokenIn tokenOut maxHops)) maxHops depth edge ↔
      canCross graph constraints edge (tokenIn, tokenOut) ∧
        ∃ back, AllowedPath graph constraints (tokenIn, tokenOut) tokenOut back edge.target ∧
          depth + 1 + back.length ≤ maxHops := by
  rw [passes, Bool.and_eq_true_iff, withinBudget_getHopsToReach_iff]
  rfl

private theorem reachedAt_walkExpand_iff :
    ReachedAt (walkExpand graph constraints (tokenIn, some tokenOut)
        (some (getHopsToReach graph constraints tokenIn tokenOut maxHops)) maxHops) tokenIn node
        depth ↔
      Budgeted graph constraints tokenIn tokenOut maxHops node depth := by
  constructor
  · intro reached
    induction reached with
    | start => exact .start
    | hop _ child ih =>
      obtain ⟨-, edge, leaves, passed, rfl⟩ := mem_walkExpand.mp child
      obtain ⟨member, rfl⟩ := StableDiGraph.mem_outgoing.mp leaves
      obtain ⟨crossed, back, walked, fits⟩ := passes_getHopsToReach_iff.mp passed
      exact .hop ih member crossed walked fits
  · intro budgeted
    induction budgeted with
    | start => exact .start
    | @hop edge back depth _ member crossed walked fits ih =>
      exact .hop ih (mem_walkExpand.mpr ⟨by omega, edge,
        StableDiGraph.mem_outgoing.mpr ⟨member, rfl⟩,
        passes_getHopsToReach_iff.mpr ⟨crossed, back, walked, fits⟩, rfl⟩)

private theorem keeps_getSubgraph_iff (sourceInside : tokenIn < graph.nodes.length)
    {source : NodeIndex} {hop : NodeIndex × ComponentId} :
    Keeps (getSubgraph graph constraints tokenIn tokenOut maxHops) source hop ↔
      ∃ edge, Affordable graph constraints tokenIn tokenOut maxHops edge ∧ edge.source = source ∧
        (edge.target, edge.weight.componentId) = hop := by
  rw [getSubgraph, keeps_getSubgraphWithHopMap_iff sourceInside]
  simp only [reachedAt_walkExpand_iff, passes_getHopsToReach_iff, StableDiGraph.mem_outgoing]
  constructor
  · rintro ⟨depth, budgeted, -, edge, ⟨member, rfl⟩, ⟨crossed, back, walked, fits⟩, named⟩
    exact ⟨edge, ⟨member, crossed, depth, budgeted, back, walked, fits⟩, rfl, named⟩
  · rintro ⟨edge, ⟨member, crossed, depth, budgeted, back, walked, fits⟩, rfl, named⟩
    exact ⟨depth, budgeted, by omega, edge, ⟨member, rfl⟩, ⟨crossed, back, walked, fits⟩, named⟩

section

variable (graph constraints tokenIn tokenOut maxHops)

/-- An edge of a simple allowed path of at most `maxHops` edges between the endpoints. -/
def OnShortRoute (edge : PoolEdge D) : Prop :=
  ∃ path, AllowedPath graph constraints (tokenIn, tokenOut) tokenIn path tokenOut ∧
    (tokenIn :: path.map StableEdge.target).Nodup ∧ path.length ≤ maxHops ∧ edge ∈ path

/-- The hops from the source token to an edge, the edge, and the hops from it to the
destination, all along the direction of travel, are at most `maxHops` together. -/
def FitsBetween (edge : PoolEdge D) : Prop :=
  ∃ before after, AllowedPath graph constraints (tokenIn, tokenOut) tokenIn before edge.source ∧
    AllowedPath graph constraints (tokenIn, tokenOut) edge.target after tokenOut ∧
    before.length + 1 + after.length ≤ maxHops

/-- The subgraph keeps every edge of a short simple route, and only edges that fit between the
endpoints. -/
def SubgraphExact : Prop :=
  (∀ edge, OnShortRoute graph constraints tokenIn tokenOut maxHops edge →
    Keeps (getSubgraph graph constraints tokenIn tokenOut maxHops) edge.source
      (edge.target, edge.weight.componentId)) ∧
  ∀ source hop, Keeps (getSubgraph graph constraints tokenIn tokenOut maxHops) source hop →
    ∃ edge ∈ graph.edges, edge.source = source ∧ (edge.target, edge.weight.componentId) = hop ∧
      FitsBetween graph constraints tokenIn tokenOut maxHops edge

end

/-- Every edge has an opposite one of the same component. -/
def Opposites (graph : TokenDiGraph D) : Prop :=
  ∀ edge ∈ graph.edges, ∃ back ∈ graph.edges, back.source = edge.target ∧
    back.target = edge.source ∧ back.weight.componentId = edge.weight.componentId

private theorem AllowedPath.mem_edges
    (walked : AllowedPath graph constraints endpoints start path finish) (member : edge ∈ path) :
    edge ∈ graph.edges := by
  induction path generalizing start with
  | nil => simp at member
  | cons first rest ih =>
    obtain rfl | later := mem_cons.mp member
    · exact walked.1
    · exact ih walked.2.2.2 later

/-- With opposite edges, an allowed path from an allowed token can be walked back. -/
theorem AllowedPath.reverse (opposites : Opposites graph)
    (allowed : constraints.allowsToken (tokenOf graph start)
      (tokenOf graph endpoints.1, tokenOf graph endpoints.2))
    (walked : AllowedPath graph constraints endpoints start path finish) :
    ∃ back, AllowedPath graph constraints endpoints finish back start ∧
      back.length = path.length := by
  induction path generalizing start with
  | nil =>
    obtain rfl : start = finish := walked
    exact ⟨[], rfl, rfl⟩
  | cons edge rest ih =>
    obtain ⟨member, rfl, crossed, following⟩ := walked
    obtain ⟨open_, onward⟩ := Bool.and_eq_true_iff.mp crossed
    obtain ⟨back, returned, length⟩ := ih onward following
    obtain ⟨opposite, inGraph, leaves, enters, component⟩ := opposites edge member
    refine ⟨back ++ [opposite], allowedPath_append.mpr ⟨_, returned, inGraph, leaves, ?_, enters⟩,
      by simp [length]⟩
    rw [canCross, component, enters, open_, allowed]
    rfl

private theorem Budgeted.allowedPath
    (budgeted : Budgeted graph constraints tokenIn tokenOut maxHops node depth) :
    ∃ path, AllowedPath graph constraints (tokenIn, tokenOut) tokenIn path node ∧
      path.length = depth := by
  induction budgeted with
  | start => exact ⟨[], rfl, rfl⟩
  | @hop edge back depth _ member crossed _ _ ih =>
    obtain ⟨path, walked, rfl⟩ := ih
    exact ⟨path ++ [edge], allowedPath_append.mpr ⟨_, walked, member, rfl, crossed, rfl⟩, by simp⟩

/-- With opposite edges, the hops from the destination bound the hops to it, so every edge of a
short route is affordable. -/
theorem Budgeted.along (opposites : Opposites graph)
    (budgeted : Budgeted graph constraints tokenIn tokenOut maxHops start depth)
    (walked : AllowedPath graph constraints (tokenIn, tokenOut) start path tokenOut)
    (short : depth + path.length ≤ maxHops) :
    ∀ edge ∈ path, Affordable graph constraints tokenIn tokenOut maxHops edge := by
  induction path generalizing start depth with
  | nil => simp
  | cons first rest ih =>
    obtain ⟨member, rfl, crossed, following⟩ := walked
    rw [length_cons] at short
    obtain ⟨back, returned, length⟩ := following.reverse opposites
      (Bool.and_eq_true_iff.mp crossed).2
    have fits : depth + 1 + back.length ≤ maxHops := by omega
    intro edge inPath
    obtain rfl | later := mem_cons.mp inPath
    · exact ⟨member, crossed, depth, budgeted, back, returned, fits⟩
    · exact ih (.hop budgeted member crossed returned fits) following (by omega) edge later

/-- An edge of the graph is kept exactly when it is affordable: the component, the source and the
target of an edge are all that counts. -/
theorem keeps_edge_iff (sourceInside : tokenIn < graph.nodes.length) (member : edge ∈ graph.edges) :
    Keeps (getSubgraph graph constraints tokenIn tokenOut maxHops) edge.source
        (edge.target, edge.weight.componentId) ↔
      Affordable graph constraints tokenIn tokenOut maxHops edge := by
  rw [keeps_getSubgraph_iff sourceInside]
  constructor
  · rintro ⟨other, ⟨-, crossed, budget⟩, source, named⟩
    obtain ⟨target, component⟩ := Prod.mk.inj named
    rw [source, target] at budget
    rw [canCross, target, component] at crossed
    exact ⟨member, crossed, budget⟩
  · exact fun affordable => ⟨edge, affordable, rfl, rfl⟩

/-- **What the subgraph keeps.** It loses no short route and keeps no useless edge exactly when
every edge of a short route is within the budget counted from the destination and every edge
within that budget fits between the endpoints. Both hold when every pool is entered as a pair of
opposite edges. -/
theorem subgraph_exact_iff (graph : TokenDiGraph D) (constraints : ResolvedRouteConstraints)
    (tokenIn tokenOut : NodeIndex) (maxHops : Nat) (sourceInside : tokenIn < graph.nodes.length) :
    (SubgraphExact graph constraints tokenIn tokenOut maxHops ↔
      ∀ edge ∈ graph.edges,
        (OnShortRoute graph constraints tokenIn tokenOut maxHops edge →
          Affordable graph constraints tokenIn tokenOut maxHops edge) ∧
        (Affordable graph constraints tokenIn tokenOut maxHops edge →
          FitsBetween graph constraints tokenIn tokenOut maxHops edge)) ∧
    (Opposites graph → SubgraphExact graph constraints tokenIn tokenOut maxHops) := by
  refine (and_self_iff.mpr ⟨?_, ?_⟩).imp_right
    fun decides opposites => decides.mpr fun edge member => ⟨?_, ?_⟩
  · rintro ⟨complete, sound⟩ edge member
    refine ⟨fun routed => (keeps_edge_iff sourceInside member).mp (complete edge routed),
      fun affordable => ?_⟩
    obtain ⟨other, -, source, named, fits⟩ :=
      sound _ _ ((keeps_edge_iff sourceInside member).mpr affordable)
    rwa [FitsBetween, source, (Prod.mk.inj named).1] at fits
  · intro exact
    refine ⟨fun edge routed => ?_, fun source hop kept => ?_⟩
    · have member : edge ∈ graph.edges := by
        obtain ⟨path, walked, -, -, inPath⟩ := routed
        exact walked.mem_edges inPath
      exact (keeps_edge_iff sourceInside member).mpr ((exact edge member).1 routed)
    · obtain ⟨edge, affordable, leaves, named⟩ := (keeps_getSubgraph_iff sourceInside).mp kept
      exact ⟨edge, affordable.1, leaves, named, (exact edge affordable.1).2 affordable⟩
  · rintro ⟨path, walked, -, short, inPath⟩
    exact Budgeted.start.along opposites walked (by omega) edge inPath
  · rintro ⟨-, crossed, depth, budgeted, back, returned, fits⟩
    obtain ⟨before, walked, rfl⟩ := budgeted.allowedPath
    obtain ⟨after, onward, length⟩ := returned.reverse opposites (by
      simp [ResolvedRouteConstraints.allowsToken])
    exact ⟨before, after, walked, onward, by omega⟩

/-- The graph of a single path of pools that trade both ways. -/
def directGraph : TokenDiGraph Unit :=
  linearGraph [listed "01" (.between 0 1 100 1000), listed "12" (.between 1 2 100 1000)]

/-- Its subgraph between tokens 0 and 2 is exact, and not empty. -/
theorem direct_subgraph_exact :
    0 < directGraph.nodes.length ∧ Opposites directGraph ∧
      (getSubgraph directGraph .default 0 2 3).isSome = true ∧
      SubgraphExact directGraph .default 0 2 3 := by
  have sourceInside : 0 < directGraph.nodes.length := by decide +kernel
  have opposites : Opposites directGraph := by
    unfold Opposites
    decide +kernel
  exact ⟨sourceInside, opposites, by decide +kernel,
    (subgraph_exact_iff directGraph .default 0 2 3 sourceInside).2 opposites⟩

/-- The same path when the last pool lists one direction only. -/
def oneWayGraph : TokenDiGraph Unit :=
  linearGraph [listed "01" (.between 0 1 100 1000), ("12", .between 1 2 100 1000, [(1, 2)])]

/-- Token 2 has no outgoing edge, so the hop map holds token 2 alone and the whole path from
token 0 is dropped. -/
theorem one_way_subgraph_loses_route :
    OnShortRoute oneWayGraph .default 0 2 3 ⟨2, 1, 2, ⟨"12", none⟩⟩ ∧
      getSubgraph oneWayGraph .default 0 2 3 = none ∧
      ¬ SubgraphExact oneWayGraph .default 0 2 3 := by
  have routed : OnShortRoute oneWayGraph .default 0 2 3 ⟨2, 1, 2, ⟨"12", none⟩⟩ :=
    ⟨[⟨0, 0, 1, ⟨"01", none⟩⟩, ⟨2, 1, 2, ⟨"12", none⟩⟩], by decide +kernel, by decide +kernel,
      by decide +kernel, by decide +kernel⟩
  have lost : getSubgraph oneWayGraph .default 0 2 3 = none := by
    rw [← Option.not_isSome_iff_eq_none]
    decide +kernel
  refine ⟨routed, lost, fun exact => ?_⟩
  obtain ⟨kept, found, -⟩ := exact.1 _ routed
  simp [lost] at found

end Paths

end Fynd
