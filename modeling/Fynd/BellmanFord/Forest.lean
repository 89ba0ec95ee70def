import Mathlib.Data.List.Range
import Fynd.BellmanFord.LinearMarket
import Fynd.BellmanFord.RouteBuilding
import Fynd.Foundation.ParentForest

/-!
# The predecessor arrays form a forest

A relaxation rewrites predecessors in place. The conflict check walks the chain of
the source first, so the target never hangs above it, and the arrays stay a forest
rooted at the source token (`predecessor_forest`). The walks over the arrays
therefore end, and the path of every node that holds an amount is reconstructed.
-/

namespace Fynd

open Foundation List

variable {P : Type}

section Walks

variable {predecessor : NodeIndex → Option (NodeIndex × ComponentId)}
  {root node target : NodeIndex} {component : ComponentId} {hops : List PathEdge}

/-- Given more steps than the chain has hops, the conflict walk ends and reports whether the
chain holds the target token or the component. -/
theorem pathHasConflict_of_descends (free : predecessor root = none)
    (descent : Descends predecessor root node hops) {steps : Nat} (long : hops.length < steps) :
    pathHasConflict predecessor target component steps node =
      some (decide (target ∈ nodesFrom root hops ∨ ∃ hop ∈ hops, hop.2.2 = component)) := by
  induction descent generalizing steps with
  | refl =>
    obtain ⟨steps, rfl⟩ := Nat.exists_eq_succ_of_ne_zero (Nat.ne_zero_of_lt long)
    by_cases same : root = target
    · simp [pathHasConflict, same]
    · simp [pathHasConflict, same, Ne.symm same, free]
  | @snoc before node label hops descent pointer ih =>
    obtain ⟨steps, rfl⟩ := Nat.exists_eq_succ_of_ne_zero (Nat.ne_zero_of_lt long)
    have shorter := @ih steps (by simpa using long)
    by_cases same : node = target
    · simp [pathHasConflict, same]
    · by_cases used : label = component
      · simp [pathHasConflict, same, pointer, used]
      · simp only [pathHasConflict, same, ↓reduceIte, pointer, used, shorter,
          nodesFrom_append_singleton, mem_append, mem_singleton, Ne.symm same, or_false,
          or_and_right, exists_or, exists_eq_left]

/-- The walk back from a node returns its chain when that is free of visited nodes and fits the
array. -/
theorem reconstructFrom_of_descends (descent : Descends predecessor root node hops)
    (distinct : (nodesFrom root hops).Nodup) {steps : Nat} {visited : List NodeIndex}
    {path : List PathEdge} (long : hops.length ≤ steps)
    (fresh : ∀ passed ∈ nodesFrom root hops, passed ∉ visited) :
    reconstructFrom predecessor root steps visited path node = .ok (hops ++ path) := by
  induction descent generalizing steps visited path with
  | refl =>
    unfold reconstructFrom
    simp
  | @snoc before node label hops descent pointer ih =>
    rw [nodesFrom_append_singleton] at distinct fresh
    obtain ⟨shorter, -, apart⟩ := nodup_append.mp distinct
    have notRoot : node ≠ root := fun same => apart root (by simp) node (by simp) same.symm
    have unseen : node ∉ visited := fresh node (by simp)
    rw [length_append, length_singleton] at long
    obtain ⟨steps, rfl⟩ : ∃ fewer, steps = fewer + 1 := ⟨steps - 1, by omega⟩
    unfold reconstructFrom
    simp only [notRoot, ↓reduceIte, unseen, pointer]
    rw [ih shorter (Nat.le_of_succ_le_succ long), append_assoc, singleton_append]
    intro passed member visitedNow
    obtain rfl | earlier := mem_cons.mp visitedNow
    · exact apart passed member passed (by simp) rfl
    · exact fresh passed (mem_append_left _ member) earlier

private theorem descends_of_reconstructFrom {steps : Nat} {visited : List NodeIndex}
    {path result : List PathEdge}
    (walked : reconstructFrom predecessor root steps visited path node = .ok result) :
    ∃ hops, Descends predecessor root node hops ∧ result = hops ++ path := by
  induction steps generalizing visited path node with
  | zero =>
    unfold reconstructFrom at walked
    split at walked
    · rename_i same
      cases walked
      exact ⟨[], same ▸ .refl, rfl⟩
    · split at walked
      · cases walked
      · cases pointer : predecessor node <;> simp [pointer] at walked
  | succ steps ih =>
    unfold reconstructFrom at walked
    split at walked
    · rename_i same
      cases walked
      exact ⟨[], same ▸ .refl, rfl⟩
    · split at walked
      · cases walked
      · cases pointer : predecessor node with
        | none => simp [pointer] at walked
        | some hop =>
          simp only [pointer] at walked
          obtain ⟨hops, descent, rfl⟩ := ih walked
          exact ⟨hops ++ [(hop.1, node, hop.2)], .snoc descent pointer, by simp⟩

end Walks

/-- What every state of a relaxation keeps: the predecessors form a forest rooted at the source
token, inside the arrays, and reach every node that holds an amount; the source token keeps the
input. -/
structure ForestInvariant (ctx : BellmanFordContext P) (amountIn : Nat)
    (state : SpfaState) : Prop where
  rooted : Rooted state.predecessor ctx.tokenInNode
  reached : ∀ node, state.amount node ≠ 0 →
    node = ctx.tokenInNode ∨ (state.predecessor node).isSome
  bounded : ∀ node, (state.predecessor node).isSome → node < ctx.maxIdx
  input : state.amount ctx.tokenInNode = amountIn

namespace ForestInvariant

variable {ctx : BellmanFordContext P} {amountIn : Nat} {state : SpfaState}
  {start node target : NodeIndex} {component : ComponentId} {hops : List PathEdge}

private theorem initial (ctx : BellmanFordContext P) (amountIn : Nat) :
    ForestInvariant ctx amountIn (initialSpfa ctx amountIn) where
  rooted := Rooted.empty _
  reached := by
    intro node nonzero
    by_contra other
    rw [not_or] at other
    simp [initialSpfa, Function.update_of_ne other.1] at nonzero
  bounded := by simp [initialSpfa]
  input := by simp [initialSpfa]

section

variable (forest : ForestInvariant ctx amountIn state)
include forest

/-- Every node that holds an amount descends from the source token. -/
theorem descends (nonzero : state.amount node ≠ 0) :
    ∃ hops, Descends state.predecessor ctx.tokenInNode node hops := by
  obtain rfl | pointed := forest.reached node nonzero
  · exact ⟨[], .refl⟩
  · exact forest.rooted.descends node pointed

private theorem length_lt (descent : Descends state.predecessor ctx.tokenInNode node hops) :
    hops.length < ctx.maxIdx := by
  have inside : nodesFrom ctx.tokenInNode hops ⊆ List.range ctx.maxIdx := by
    intro passed member
    rw [mem_range]
    obtain rfl | ⟨hop, inHops, rfl⟩ := mem_nodesFrom.mp member
    · exact ctx.tokenInNode_lt
    · exact forest.bounded _ (by simp [descent.parent_of_mem hop inHops])
  have short := (subperm_of_subset (descent.nodup forest.rooted.free) inside).length_le
  rw [length_range, nodesFrom, length_cons, length_map] at short
  exact short

/-- A path is reconstructed exactly along the predecessors. -/
theorem reconstructPath_eq_ok_iff :
    reconstructPath node start state.predecessor ctx.maxIdx = .ok hops ↔
      Descends state.predecessor start node hops := by
  constructor
  · intro walked
    obtain ⟨chain, descent, joined⟩ := descends_of_reconstructFrom walked
    rwa [joined, append_nil]
  · intro descent
    have entered : (hops.map fun hop => hop.2.1) ⊆ List.range ctx.maxIdx := by
      intro passed member
      obtain ⟨hop, inHops, rfl⟩ := mem_map.mp member
      exact mem_range.mpr (forest.bounded _ (by simp [descent.parent_of_mem hop inHops]))
    have distinct := forest.rooted.nodup_of_descends descent
    have short := (subperm_of_subset (nodup_cons.mp distinct).2 entered).length_le
    have walked : reconstructFrom state.predecessor start ctx.maxIdx [] [] node =
        .ok (hops ++ []) :=
      reconstructFrom_of_descends descent distinct (by simpa using short) (by simp)
    rwa [append_nil] at walked

theorem no_self_hop : state.predecessor node ≠ some (node, component) := by
  intro pointer
  exact forest.rooted.not_entered (Descends.snoc .refl pointer) (node, node, component)
    (by simp) rfl

private theorem pathHasConflict_eq
    (descent : Descends state.predecessor ctx.tokenInNode node hops) :
    pathHasConflict state.predecessor target component ctx.maxIdx node =
      some (decide (target ∈ nodesFrom ctx.tokenInNode hops ∨
        ∃ hop ∈ hops, hop.2.2 = component)) :=
  pathHasConflict_of_descends forest.rooted.free descent (forest.length_lt descent)

private theorem pathHasConflict_isSome :
    (pathHasConflict state.predecessor target component ctx.maxIdx node).isSome := by
  cases pointer : state.predecessor node with
  | none =>
    rw [pathHasConflict_of_descends pointer .refl (Nat.zero_lt_of_lt ctx.tokenInNode_lt)]
    rfl
  | some _ =>
    obtain ⟨hops, descent⟩ := forest.rooted.descends node (by simp [pointer])
    rw [forest.pathHasConflict_eq descent]
    rfl

end

section Step

variable [ProtocolSim P] {algorithm : BellmanFordAlgorithm}
  {overrides : MarketOverrides P} {action : SpfaStep} {hop : AcceptedHop}

/-- A written hop extends the chain of its source by a token and a component not on it. -/
theorem accepted_fresh (forest : ForestInvariant ctx amountIn state)
    (guarded : action.Guarded ctx state)
    (written : state.accepted algorithm ctx overrides action = some hop) :
    hop.target < ctx.maxIdx ∧ ∃ above, Descends state.predecessor ctx.tokenInNode hop.source above ∧
      hop.target ∉ nodesFrom ctx.tokenInNode above ∧
      ∀ earlier ∈ above, earlier.2.2 ≠ hop.component := by
  obtain ⟨rfl, clear, -⟩ := SpfaState.accepted_eq_some written
  obtain ⟨nonzero, edges, listed, edge⟩ := guarded
  obtain ⟨above, upper⟩ := forest.descends nonzero
  rw [forest.pathHasConflict_eq upper] at clear
  simp only [Option.some.injEq, decide_eq_false_iff_not, not_or, not_exists, not_and] at clear
  exact ⟨ctx.adj_lt _ _ listed _ edge, above, upper, clear⟩

/-- A relaxation keeps the forest. -/
theorem step (forest : ForestInvariant ctx amountIn state) (guarded : action.Guarded ctx state) :
    ForestInvariant ctx amountIn (state.step algorithm ctx overrides action) := by
  cases outcome : state.accepted algorithm ctx overrides action with
  | none =>
    obtain ⟨amount, predecessor, -⟩ := SpfaState.step_of_accepted_none outcome
    exact ⟨by rw [predecessor]; exact forest.rooted,
      by rw [amount, predecessor]; exact forest.reached,
      by rw [predecessor]; exact forest.bounded,
      by rw [amount]; exact forest.input⟩
  | some hop =>
    obtain ⟨amount, predecessor, -⟩ := SpfaState.step_of_accepted_some outcome
    obtain ⟨inside, above, upper, fresh, -⟩ := forest.accepted_fresh guarded outcome
    have notRoot : ctx.tokenInNode ≠ hop.target := fun same => fresh (by simp [← same])
    refine ⟨?_, ?_, ?_, ?_⟩
    · rw [predecessor]
      exact forest.rooted.update upper fresh
    · rw [amount, predecessor]
      intro node nonzero
      by_cases rewritten : node = hop.target
      · exact .inr (by simp [rewritten])
      · rw [Function.update_of_ne rewritten] at nonzero ⊢
        exact forest.reached node nonzero
    · rw [predecessor]
      intro node pointed
      by_cases rewritten : node = hop.target
      · exact rewritten ▸ inside
      · rw [Function.update_of_ne rewritten] at pointed
        exact forest.bounded node pointed
    · rw [amount, Function.update_of_ne notRoot, forest.input]

end Step

end ForestInvariant

section Run

variable [ProtocolSim P] (algorithm : BellmanFordAlgorithm) (ctx : BellmanFordContext P)
  (overrides : MarketOverrides P) (amountIn : Nat) (timedOut : Nat → Bool)

/-- The forest holds before and after every step of a run, and in its result. -/
theorem spfaSteps_forest :
    (∀ entry ∈ spfaSteps algorithm ctx overrides amountIn timedOut,
      ForestInvariant ctx amountIn entry.1 ∧
        ForestInvariant ctx amountIn (entry.1.step algorithm ctx overrides entry.2)) ∧
      ForestInvariant ctx amountIn (runSpfa algorithm ctx overrides amountIn timedOut).1 :=
  (spfaSteps_trace amountIn timedOut).invariant _ (ForestInvariant.initial ctx amountIn)
    fun entry member forest => forest.step (spfaSteps_guarded amountIn timedOut entry member)

variable {amountIn}

/-- **Exact conditions along a run.** If from a forest a condition on each step decides whether the
step keeps a property, the property holds after every step exactly when every step meets the
condition, and then in the result. -/
theorem spfaSteps_keep_iff {holds : SpfaState → Prop} {keeps : SpfaState → SpfaStep → Prop}
    (initial : holds (initialSpfa ctx amountIn))
    (decides : ∀ state step, ForestInvariant ctx amountIn state → step.Guarded ctx state →
      holds state → (holds (state.step algorithm ctx overrides step) ↔ keeps state step)) :
    ((∀ entry ∈ spfaSteps algorithm ctx overrides amountIn timedOut,
      holds (entry.1.step algorithm ctx overrides entry.2)) ↔
        ∀ entry ∈ spfaSteps algorithm ctx overrides amountIn timedOut, keeps entry.1 entry.2) ∧
      ((∀ entry ∈ spfaSteps algorithm ctx overrides amountIn timedOut, keeps entry.1 entry.2) →
        holds (runSpfa algorithm ctx overrides amountIn timedOut).1) := by
  have trace := @spfaSteps_trace _ _ algorithm ctx overrides amountIn timedOut
  have exact := trace.invariant_iff initial
    (fun entry member =>
      ((spfaSteps_forest algorithm ctx overrides amountIn timedOut).1 entry member).1)
    fun entry member forest =>
      decides entry.1 entry.2 forest (spfaSteps_guarded amountIn timedOut entry member)
  refine ⟨exact, fun kept => (trace.invariant holds initial fun entry member _ => ?_).2⟩
  exact exact.mpr kept entry member

variable (amountIn)

/-- The states of a run: before and after each of its steps, and its result. -/
def SpfaReaches (state : SpfaState) : Prop :=
  (∃ entry ∈ spfaSteps algorithm ctx overrides amountIn timedOut,
    state = entry.1 ∨ state = entry.1.step algorithm ctx overrides entry.2) ∨
    state = (runSpfa algorithm ctx overrides amountIn timedOut).1

/-- **The predecessors are a forest rooted at the source token, after every relaxation step.**
The source token has no predecessor, every node with one descends from the source token along
distinct tokens, the conflict walk ends from every node, and the path of every node that holds
an amount is reconstructed. -/
theorem predecessor_forest (state : SpfaState)
    (reached : SpfaReaches algorithm ctx overrides amountIn timedOut state) :
    state.predecessor ctx.tokenInNode = none ∧
      (∀ node, (state.predecessor node).isSome →
        ∃ hops, Descends state.predecessor ctx.tokenInNode node hops ∧
          (nodesFrom ctx.tokenInNode hops).Nodup) ∧
      (∀ source target component,
        (pathHasConflict state.predecessor target component ctx.maxIdx source).isSome) ∧
      ∀ node, state.amount node ≠ 0 →
        ∃ hops, reconstructPath node ctx.tokenInNode state.predecessor ctx.maxIdx = .ok hops ∧
          Descends state.predecessor ctx.tokenInNode node hops := by
  have forest : ForestInvariant ctx amountIn state := by
    obtain ⟨along, final⟩ := spfaSteps_forest algorithm ctx overrides amountIn timedOut
    obtain ⟨entry, member, rfl | rfl⟩ | rfl := reached
    · exact (along entry member).1
    · exact (along entry member).2
    · exact final
  refine ⟨forest.rooted.free, fun node pointed => ?_,
    fun source target component => forest.pathHasConflict_isSome, fun node nonzero => ?_⟩
  · obtain ⟨hops, descent⟩ := forest.rooted.descends node pointed
    exact ⟨hops, descent, descent.nodup forest.rooted.free⟩
  · obtain ⟨hops, descent⟩ := forest.descends nonzero
    exact ⟨hops, forest.reconstructPath_eq_ok_iff.mpr descent, descent⟩

end Run

/-- The forest of the detour: token 3 hangs below token 1, which was moved below token 2. -/
theorem detour_predecessor_forest :
    SpfaReaches threeHops detourContext ∅ 100 (fun _ => false)
        (runSpfa threeHops detourContext ∅ 100 (fun _ => false)).1 ∧
      (runSpfa threeHops detourContext ∅ 100 (fun _ => false)).1.amount 3 ≠ 0 ∧
      ∃ hops, reconstructPath 3 detourContext.tokenInNode
          (runSpfa threeHops detourContext ∅ 100 (fun _ => false)).1.predecessor
          detourContext.maxIdx = .ok hops ∧
        Descends (runSpfa threeHops detourContext ∅ 100 (fun _ => false)).1.predecessor
          detourContext.tokenInNode 3 hops := by
  have reached : SpfaReaches threeHops detourContext ∅ 100 (fun _ => false)
      (runSpfa threeHops detourContext ∅ 100 (fun _ => false)).1 := .inr rfl
  have nonzero : (runSpfa threeHops detourContext ∅ 100 (fun _ => false)).1.amount 3 ≠ 0 := by
    decide +kernel
  exact ⟨reached, nonzero,
    (predecessor_forest threeHops detourContext ∅ 100 _ _ reached).2.2.2 3 nonzero⟩

/-- The steps of the sale in which a node is rewritten before any hop leaves it. -/
def improvedSteps : List (SpfaState × SpfaStep) :=
  spfaSteps threeHops improvedContext ∅ saleOfHundred.amount fun _ => false

/-- What it finds. -/
def improvedResult : RouteResult LinearPool :=
  okValue (findSingleRoute threeHops improvedContext ∅ saleOfHundred fun _ => false)
    (by decide +kernel)

end Fynd
