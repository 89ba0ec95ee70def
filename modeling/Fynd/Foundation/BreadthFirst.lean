import Mathlib.Data.List.Nodup
import Mathlib.Data.List.Perm.Subperm

/-!
# Breadth-first search with a queue

Nodes are taken off a queue one by one and expanded; those seen for the first time
join its end, one level deeper. What a node expands to may shrink with its depth.
As long as each turn follows the rule `BreadthFirst.pop`, a search whose queue has run
empty has processed every node at the least depth at which it can be reached.
-/

namespace Fynd.Foundation

open List

variable {Node : Type*}

section Unseen

variable [DecidableEq Node]

/-- The first occurrences of nodes that have not been seen. -/
def unseen : List Node → List Node → List Node
  | _, [] => []
  | seen, node :: rest =>
    if node ∈ seen then unseen seen rest else node :: unseen (node :: seen) rest

theorem mem_unseen {seen nodes : List Node} {node : Node} :
    node ∈ unseen seen nodes ↔ node ∈ nodes ∧ node ∉ seen := by
  induction nodes generalizing seen with
  | nil => simp [unseen]
  | cons first rest ih =>
    unfold unseen
    split <;> simp only [ih, mem_cons] <;> grind

theorem nodup_unseen (seen nodes : List Node) : (unseen seen nodes).Nodup := by
  induction nodes generalizing seen with
  | nil => exact nodup_nil
  | cons first rest ih =>
    unfold unseen
    split
    · exact ih seen
    · exact nodup_cons.mpr ⟨fun again => (mem_unseen.mp again).2 (by simp), ih _⟩

theorem unseen_congr {seen other : List Node} (same : ∀ node, node ∈ seen ↔ node ∈ other)
    (nodes : List Node) : unseen seen nodes = unseen other nodes := by
  induction nodes generalizing seen other with
  | nil => rfl
  | cons first rest ih =>
    unfold unseen
    have both : ∀ node, node ∈ first :: seen ↔ node ∈ first :: other := by simp [same]
    rw [ih same, ih both]
    simp [same]

theorem unseen_cons (seen : List Node) (node : Node) (rest : List Node) :
    unseen seen (node :: rest) = unseen seen [node] ++ unseen (node :: seen) rest := by
  by_cases old : node ∈ seen
  · have same : ∀ other, other ∈ node :: seen ↔ other ∈ seen := fun other => by
      simp only [mem_cons, or_iff_right_iff_imp]
      rintro rfl
      exact old
    simp [unseen, old, unseen_congr same]
  · simp [unseen, old]

end Unseen

/-- A node can be reached by expanding nodes level after level from the start. -/
inductive ReachedAt (expand : Node → Nat → List Node) (start : Node) : Node → Nat → Prop
  | start : ReachedAt expand start start 0
  | hop {node next : Node} {depth : Nat} :
      ReachedAt expand start node depth → next ∈ expand node depth →
        ReachedAt expand start next (depth + 1)

/-- A search in progress: what has been processed and what waits, each with its depth. Depths in
the queue never fall, and nothing lies more than one level below its head. -/
structure BreadthFirst (expand : Node → Nat → List Node) (start : Node)
    (processed queue : List (Node × Nat)) : Prop where
  sound : ∀ entry ∈ processed ++ queue, ReachedAt expand start entry.1 entry.2
  started : (start, 0) ∈ processed ++ queue
  closed : ∀ entry ∈ processed, ∀ next ∈ expand entry.1 entry.2,
    ∃ depth ≤ entry.2 + 1, (next, depth) ∈ processed ++ queue
  distinct : ((processed ++ queue).map Prod.fst).Nodup
  sorted : queue.Pairwise fun earlier later => earlier.2 ≤ later.2
  level : ∀ entry ∈ processed ++ queue, ∀ waiting ∈ queue, entry.2 ≤ waiting.2 + 1

namespace BreadthFirst

variable {expand : Node → Nat → List Node} {start node : Node} {depth : Nat}
  {processed queue rest : List (Node × Nat)} {fresh : List Node}

/-- A search begins with the start waiting. -/
theorem init (expand : Node → Nat → List Node) (start : Node) :
    BreadthFirst expand start [] [(start, 0)] where
  sound := by
    rintro entry member
    obtain rfl := mem_singleton.mp member
    exact .start
  started := by simp
  closed := by simp
  distinct := by simp
  sorted := by simp
  level := by simp

/-- **One turn.** The head of the queue is processed and the nodes it expands to that were not
seen before join the queue. -/
theorem pop (search : BreadthFirst expand start processed ((node, depth) :: rest))
    (expanded : ∀ next ∈ fresh, next ∈ expand node depth) (once : fresh.Nodup)
    (unseen : ∀ next ∈ fresh, next ∉ (processed ++ (node, depth) :: rest).map Prod.fst)
    (covered : ∀ next ∈ expand node depth,
      next ∈ (processed ++ (node, depth) :: rest).map Prod.fst ∨ next ∈ fresh) :
    BreadthFirst expand start (processed ++ [(node, depth)])
      (rest ++ fresh.map fun next => (next, depth + 1)) := by
  have same : (processed ++ [(node, depth)]) ++ (rest ++ fresh.map fun next => (next, depth + 1)) =
      (processed ++ (node, depth) :: rest) ++ fresh.map fun next => (next, depth + 1) := by simp
  have shallow : ∀ entry ∈ processed ++ (node, depth) :: rest, entry.2 ≤ depth + 1 :=
    fun entry member => search.level entry member (node, depth) (by simp)
  have deep : ∀ entry ∈ rest, depth ≤ entry.2 := (pairwise_cons.mp search.sorted).1
  have reached : ReachedAt expand start node depth := search.sound (node, depth) (by simp)
  refine ⟨?_, ?_, ?_, ?_, ?_, ?_⟩
  · rw [same]
    intro entry member
    obtain old | new := mem_append.mp member
    · exact search.sound entry old
    · obtain ⟨next, inFresh, rfl⟩ := mem_map.mp new
      exact .hop reached (expanded next inFresh)
  · rw [same]
    exact mem_append_left _ search.started
  · rw [same]
    intro entry member next child
    obtain old | head := mem_append.mp member
    · obtain ⟨level, bound, found⟩ := search.closed entry old next child
      exact ⟨level, bound, mem_append_left _ found⟩
    · obtain rfl := mem_singleton.mp head
      obtain seen | new := covered next child
      · obtain ⟨⟨_, level⟩, found, rfl⟩ := mem_map.mp seen
        exact ⟨level, shallow _ found, mem_append_left _ found⟩
      · exact ⟨depth + 1, Nat.le_refl _, mem_append_right _ (mem_map.mpr ⟨next, new, rfl⟩)⟩
  · have firsts : (fresh.map fun next => (next, depth + 1)).map Prod.fst = fresh := by
      simp [Function.comp_def]
    rw [same, map_append, firsts]
    refine nodup_append.mpr ⟨search.distinct, once, ?_⟩
    rintro seen old other new rfl
    exact unseen seen new old
  · refine pairwise_append.mpr ⟨(pairwise_cons.mp search.sorted).2, ?_, ?_⟩
    · exact pairwise_map.mpr (pairwise_of_forall fun _ _ => Nat.le_refl _)
    · intro earlier old later new
      obtain ⟨next, -, rfl⟩ := mem_map.mp new
      exact shallow earlier (mem_append_right _ (mem_cons_of_mem _ old))
  · rw [same]
    intro entry member waiting inQueue
    have floor : depth ≤ waiting.2 := by
      obtain old | new := mem_append.mp inQueue
      · exact deep waiting old
      · obtain ⟨next, -, rfl⟩ := mem_map.mp new
        exact Nat.le_succ depth
    have ceiling : entry.2 ≤ depth + 1 := by
      obtain old | new := mem_append.mp member
      · exact shallow entry old
      · obtain ⟨next, -, rfl⟩ := mem_map.mp new
        exact Nat.le_refl _
    omega

/-- One turn, when the nodes that join the queue are computed from those seen so far. -/
theorem popUnseen [DecidableEq Node] {seen : List Node}
    (search : BreadthFirst expand start processed ((node, depth) :: rest))
    (tracked : ∀ other, other ∈ seen ↔ other ∈ (processed ++ (node, depth) :: rest).map Prod.fst) :
    BreadthFirst expand start (processed ++ [(node, depth)])
      (rest ++ (unseen seen (expand node depth)).map fun next => (next, depth + 1)) := by
  refine search.pop (fun next new => (mem_unseen.mp new).1) (nodup_unseen _ _)
    (fun next new old => (mem_unseen.mp new).2 ((tracked next).mpr old)) fun next child => ?_
  by_cases old : next ∈ seen
  · exact .inl ((tracked next).mp old)
  · exact .inr (mem_unseen.mpr ⟨child, old⟩)

/-- Nodes that expand to nothing can all be processed. -/
theorem finish (search : BreadthFirst expand start processed queue)
    (barren : ∀ entry ∈ queue, expand entry.1 entry.2 = []) :
    BreadthFirst expand start (processed ++ queue) [] where
  sound := by simpa using search.sound
  started := by simpa using search.started
  closed := by
    intro entry member next child
    obtain old | waiting := mem_append.mp member
    · simpa using search.closed entry old next child
    · simp [barren entry waiting] at child
  distinct := by simpa using search.distinct
  sorted := List.Pairwise.nil
  level := by simp

/-- **Completeness.** With an empty queue, every node that can be reached has been processed, at
no greater depth. -/
theorem complete (search : BreadthFirst expand start processed [])
    (shrinks : ∀ node shallow deep, shallow ≤ deep → expand node deep ⊆ expand node shallow)
    (reached : ReachedAt expand start node depth) : ∃ level ≤ depth, (node, level) ∈ processed := by
  induction reached with
  | start => exact ⟨0, Nat.le_refl _, by simpa using search.started⟩
  | @hop node next depth _ child ih =>
    obtain ⟨level, bound, found⟩ := ih
    obtain ⟨deeper, within, done⟩ :=
      search.closed (node, level) found next (shrinks node level depth bound child)
    exact ⟨deeper, Nat.le_trans within (Nat.succ_le_succ bound), by simpa using done⟩

theorem length_le {expand : Nat → Nat → List Nat} {start : Nat} {processed queue : List (Nat × Nat)}
    (search : BreadthFirst expand start processed queue) {bound : Nat} (startInside : start < bound)
    (inside : ∀ node depth, ∀ next ∈ expand node depth, next < bound) :
    processed.length + queue.length ≤ bound := by
  have bounded : (processed ++ queue).map Prod.fst ⊆ List.range bound := by
    intro seen member
    obtain ⟨⟨node, depth⟩, listed, rfl⟩ := mem_map.mp member
    rw [mem_range]
    cases search.sound (node, depth) listed with
    | start => exact startInside
    | hop _ child => exact inside _ _ _ child
  simpa using (subperm_of_subset search.distinct bounded).length_le

end BreadthFirst

end Fynd.Foundation
