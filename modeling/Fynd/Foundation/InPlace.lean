import Mathlib.Data.List.Basic

/-!
# Writing results back by position

A batch takes some elements of a list with their positions and later writes a result over
each. Since the positions are distinct, every element gets its own result or stays.
-/

namespace Fynd.Foundation

open List

variable {α β : Type*}

private theorem modify_length_append (front rest : List α) (element : α) (change : α → α) :
    (front ++ element :: rest).modify front.length change = front ++ change element :: rest := by
  induction front with
  | nil => rfl
  | cons first front ih =>
    rw [length_cons, cons_append, modify_succ_cons, ih, cons_append]

/-- Results written one by one over the rest of a list reach their own elements. -/
theorem foldl_modify_zipIdx_append (result : α × ℕ → Option β) (write : β → α → α)
    (front rest : List α) :
    ((rest.zipIdx front.length).filterMap fun entry => (result entry).map (entry.2, ·)).foldl
        (fun settled entry => settled.modify entry.1 (write entry.2)) (front ++ rest) =
      front ++ (rest.zipIdx front.length).map fun entry =>
        (result entry).elim entry.1 fun value => write value entry.1 := by
  induction rest generalizing front with
  | nil => simp
  | cons element rest ih =>
    rw [zipIdx_cons, filterMap_cons, map_cons]
    cases result (element, front.length) with
    | none =>
      have next := ih (front ++ [element])
      rw [length_append, length_singleton, append_assoc, append_assoc] at next
      exact next
    | some value =>
      have next := ih (front ++ [write value element])
      rw [length_append, length_singleton, append_assoc, append_assoc] at next
      rw [Option.map_some, foldl_cons, modify_length_append]
      exact next

/-- **Writing back.** Results written one by one over the elements they were computed for give the
list in which each of these elements has its result. -/
theorem foldl_modify_zipIdx (result : α × ℕ → Option β) (write : β → α → α) (elements : List α) :
    (elements.zipIdx.filterMap fun entry => (result entry).map (entry.2, ·)).foldl
        (fun settled entry => settled.modify entry.1 (write entry.2)) elements =
      elements.zipIdx.map fun entry =>
        (result entry).elim entry.1 fun value => write value entry.1 :=
  foldl_modify_zipIdx_append result write [] elements

end Fynd.Foundation
