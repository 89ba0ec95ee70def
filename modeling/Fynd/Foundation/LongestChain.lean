import Mathlib.Data.Fintype.Pigeonhole
import Mathlib.Data.List.Chain
import Mathlib.Logic.Relation

/-!
# Levels of a relation

A node has level zero if it is related to nothing, and else one more than the highest level it
is related to. The level is the length of the longest chain from the node. In a finite type
the nodes without a level are those that lead to a cycle.
-/

namespace Fynd.Foundation

open List

variable {α : Type*} {related : α → α → Prop}

/-- A chain of so many steps starts at a node. -/
def HasChain (related : α → α → Prop) (start : α) (steps : Nat) : Prop :=
  ∃ later : List α, later.length = steps ∧ List.IsChain related (start :: later)

/-- The longest chain from a node has so many steps. -/
def IsLongestChain (related : α → α → Prop) (start : α) (steps : Nat) : Prop :=
  HasChain related start steps ∧ ∀ other, HasChain related start other → other ≤ steps

/-- A node is on a chain that leads to a cycle. -/
def ReachesCycle (related : α → α → Prop) (start : α) : Prop :=
  ∃ node, Relation.ReflTransGen related start node ∧ Relation.TransGen related node node

private theorem IsLongestChain.unique {start : α} {first second : Nat}
    (one : IsLongestChain related start first) (other : IsLongestChain related start second) :
    first = second :=
  le_antisymm (other.2 first one.1) (one.2 second other.1)

/-- Levels that are one above the highest of those a node is related to. A node without a level
is related to another one without. -/
structure Levels (related : α → α → Prop) (level : α → Option Nat) : Prop where
  below : ∀ {node high}, level node = some high → ∀ other, related node other →
    ∃ low, level other = some low ∧ low < high
  tight : ∀ {node low}, level node = some (low + 1) →
    ∃ other, related node other ∧ level other = some low
  stuck : ∀ {node}, level node = none → ∃ other, related node other ∧ level other = none

namespace Levels

variable {level : α → Option Nat} (levels : Levels related level)

include levels

variable {node : α} {high : Nat}

private theorem hasChain (known : level node = some high) : HasChain related node high := by
  induction high generalizing node with
  | zero => exact ⟨[], rfl, .singleton node⟩
  | succ low ih =>
    obtain ⟨other, step, lower⟩ := levels.tight known
    obtain ⟨later, length, chain⟩ := ih lower
    exact ⟨other :: later, by rw [length_cons, length], .cons_cons step chain⟩

private theorem length_le {later : List α} (known : level node = some high)
    (chain : List.IsChain related (node :: later)) : later.length ≤ high := by
  induction later generalizing node high with
  | nil => exact Nat.zero_le high
  | cons next rest ih =>
    obtain ⟨step, tail⟩ := isChain_cons_cons.mp chain
    obtain ⟨low, lower, less⟩ := levels.below known next step
    have shorter := ih lower tail
    rw [length_cons]
    omega

private theorem hasChain_of_none (unknown : level node = none) (steps : Nat) :
    HasChain related node steps := by
  induction steps generalizing node with
  | zero => exact ⟨[], rfl, .singleton node⟩
  | succ steps ih =>
    obtain ⟨other, step, stays⟩ := levels.stuck unknown
    obtain ⟨later, length, chain⟩ := ih stays
    exact ⟨other :: later, by rw [length_cons, length], .cons_cons step chain⟩

/-- **The level is the length of the longest chain.** -/
theorem isLongestChain (known : level node = some high) : IsLongestChain related node high := by
  refine ⟨levels.hasChain known, fun other chained => ?_⟩
  obtain ⟨later, rfl, chain⟩ := chained
  exact levels.length_le known chain

private theorem lower_of_transGen {other : α} (path : Relation.TransGen related node other)
    (known : level node = some high) : ∃ low, level other = some low ∧ low < high := by
  induction path with
  | single step => exact levels.below known _ step
  | tail _ step ih =>
    obtain ⟨middle, at_middle, less⟩ := ih
    obtain ⟨low, lower, under⟩ := levels.below at_middle _ step
    exact ⟨low, lower, under.trans less⟩

private theorem not_reachesCycle (known : level node = some high) : ¬ReachesCycle related node := by
  intro cyclic
  obtain ⟨turn, path, cycle⟩ := cyclic
  have reached : ∃ at_turn, level turn = some at_turn := by
    obtain rfl | path := Relation.reflTransGen_iff_eq_or_transGen.mp path
    · exact ⟨high, known⟩
    · obtain ⟨low, lower, _⟩ := levels.lower_of_transGen path known
      exact ⟨low, lower⟩
  obtain ⟨at_turn, found⟩ := reached
  obtain ⟨low, lower, less⟩ := levels.lower_of_transGen cycle found
  rw [found] at lower
  cases lower
  exact absurd less (lt_irrefl _)

/-- Without a level there is always a next node without one, and among finitely many nodes one
comes again. -/
theorem reachesCycle [Finite α] (unknown : level node = none) : ReachesCycle related node := by
  choose next step stays using fun held : { node // level node = none } => levels.stuck held.2
  let advance : { node // level node = none } → { node // level node = none } :=
    fun held => ⟨next held, stays held⟩
  let visit (count : Nat) : { node // level node = none } := advance^[count] ⟨node, unknown⟩
  have moves (count : Nat) : related (visit count).1 (visit (count + 1)).1 := by
    have more : visit (count + 1) = advance (visit count) := Function.iterate_succ_apply' _ _ _
    rw [more]
    exact step (visit count)
  have path (first : Nat) (extra : Nat) :
      Relation.ReflTransGen related (visit first).1 (visit (first + extra)).1 := by
    induction extra with
    | zero => exact .refl
    | succ extra ih => exact ih.tail (moves (first + extra))
  obtain ⟨first, second, differ, same⟩ := Finite.exists_ne_map_eq_of_infinite visit
  wlog less : first < second generalizing first second
  · exact this second first differ.symm same.symm (by omega)
  obtain ⟨extra, rfl⟩ := Nat.exists_eq_add_of_lt less
  refine ⟨(visit first).1, ?_, ?_⟩
  · have reached := path 0 first
    rwa [Nat.zero_add] at reached
  · have loop := Relation.TransGen.tail' (path first extra) (moves (first + extra))
    rwa [← same] at loop

/-- **The nodes without a level are those that lead to a cycle.** -/
theorem eq_none_iff [Finite α] (node : α) : level node = none ↔ ReachesCycle related node := by
  refine ⟨levels.reachesCycle, fun cyclic => ?_⟩
  cases known : level node with
  | none => rfl
  | some high => exact absurd cyclic (levels.not_reachesCycle known)

theorem eq_some_iff (node : α) (steps : Nat) :
    level node = some steps ↔ IsLongestChain related node steps := by
  refine ⟨levels.isLongestChain, fun longest => ?_⟩
  cases known : level node with
  | some high => rw [(levels.isLongestChain known).unique longest]
  | none =>
    have longer := longest.2 (steps + 1) (levels.hasChain_of_none known (steps + 1))
    omega

end Levels

end Fynd.Foundation
