import Mathlib.Logic.Relation
import Fynd.Foundation.BreadthFirst

/-!
# Reachability with a worklist

A traversal takes a node that waits, adds the nodes it leads to that were not reached before,
and lets those wait. Any order of waiting will do. As long as each turn follows the rule
`Worklist.visit`, a traversal whose worklist has run empty has reached exactly the nodes that
lie on a path from the start, and it runs empty within one turn per node.
-/

namespace Fynd.Foundation

open List

variable {Node : Type*} [DecidableEq Node]

private theorem length_unseen_visit {reached nodes found : List Node} (listed : found ⊆ nodes) :
    (unseen reached found).length + (unseen (reached ++ unseen reached found) nodes).length ≤
      (unseen reached nodes).length := by
  rw [← length_append]
  apply List.Subperm.length_le
  apply subperm_of_subset
  · refine nodup_append.mpr ⟨nodup_unseen _ _, nodup_unseen _ _, ?_⟩
    rintro node fresh other later rfl
    exact (mem_unseen.mp later).2 (mem_append_right _ fresh)
  · intro node member
    rcases mem_append.mp member with fresh | later
    · exact mem_unseen.mpr ⟨listed (mem_unseen.mp fresh).1, (mem_unseen.mp fresh).2⟩
    · have unreached := fun early => (mem_unseen.mp later).2 (mem_append_left _ early)
      exact mem_unseen.mpr ⟨(mem_unseen.mp later).1, unreached⟩

/-- A traversal in progress that needs so many more turns at most. Every node that is reached
waits or has been expanded. -/
structure Worklist (expand : Node → List Node) (nodes : List Node) (start : Node) (turns : ℕ)
    (reached pending : List Node) : Prop where
  begun : start ∈ reached
  sound : ∀ node ∈ reached, Relation.ReflTransGen (fun node next => next ∈ expand node) start node
  expanded : ∀ node ∈ reached, node ∈ pending ∨ expand node ⊆ reached
  waiting : pending ⊆ reached
  room : pending.length + (unseen reached nodes).length ≤ turns

namespace Worklist

variable {expand : Node → List Node} {nodes : List Node} {start node : Node} {turns : ℕ}
  {reached pending rest : List Node}

variable (expand nodes start) in
/-- A traversal begins with the start waiting. -/
theorem init :
    Worklist expand nodes start (nodes.length + 1) [start] [start] where
  begun := mem_singleton_self start
  sound := by
    intro node member
    obtain rfl := mem_singleton.mp member
    exact .refl
  expanded := fun node member => .inl member
  waiting := List.Subset.refl _
  room := by
    have within := (subperm_of_subset (nodup_unseen [start] nodes) fun node member =>
      (mem_unseen.mp member).1).length_le
    rw [length_singleton]
    omega

/-- **One turn.** A node is taken off the worklist and the new nodes it leads to join, wherever
they are put. -/
theorem visit (worklist : Worklist expand nodes start (turns + 1) reached (node :: rest))
    (listed : expand node ⊆ nodes) (joined : pending.Perm (rest ++ unseen reached (expand node))) :
    Worklist expand nodes start turns (reached ++ unseen reached (expand node)) pending where
  begun := mem_append_left _ worklist.begun
  sound := by
    intro other member
    rcases mem_append.mp member with early | fresh
    · exact worklist.sound other early
    · exact (worklist.sound node (worklist.waiting mem_cons_self)).tail (mem_unseen.mp fresh).1
  expanded := by
    intro other member
    rw [joined.mem_iff, mem_append]
    rcases mem_append.mp member with early | fresh
    · rcases worklist.expanded other early with waits | done
      · rcases mem_cons.mp waits with rfl | behind
        · -- the node taken is the one that is expanded now
          right
          intro next child
          by_cases old : next ∈ reached
          · exact mem_append_left _ old
          · exact mem_append_right _ (mem_unseen.mpr ⟨child, old⟩)
        · exact .inl (.inl behind)
      · exact .inr fun next child => mem_append_left _ (done child)
    · exact .inl (.inr fresh)
  waiting := by
    intro other member
    rcases mem_append.mp (joined.subset member) with behind | fresh
    · exact mem_append_left _ (worklist.waiting (mem_cons_of_mem _ behind))
    · exact mem_append_right _ fresh
  room := by
    have fewer := @length_unseen_visit _ _ reached _ _ listed
    have before := worklist.room
    rw [joined.length_eq, length_append]
    rw [length_cons] at before
    omega

theorem pending_eq_nil (worklist : Worklist expand nodes start 0 reached pending) : pending = [] :=
  length_eq_zero_iff.mp (by have := worklist.room; omega)

/-- **The end.** When nothing waits, the nodes reached are those on a path from the start. -/
theorem mem_iff (worklist : Worklist expand nodes start turns reached []) :
    node ∈ reached ↔ Relation.ReflTransGen (fun node next => next ∈ expand node) start node := by
  refine ⟨worklist.sound node, fun path => ?_⟩
  induction path with
  | refl => exact worklist.begun
  | tail _ edge ih => exact (worklist.expanded _ ih).resolve_left not_mem_nil edge

end Worklist

end Fynd.Foundation
