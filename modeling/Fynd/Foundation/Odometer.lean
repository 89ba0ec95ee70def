import Mathlib.Algebra.BigOperators.Ring.List

/-!
# Counting through choices

One item is chosen from each of several lists. Positions count through the choices in
lexicographic order: the last position advances first, and carries into the one before it when
it wraps.
-/

namespace Fynd.Foundation

open List

variable {α β : Type*}

/-- Every choice of one item from each list, in lexicographic order. -/
def choices : List (List α) → List (List α)
  | [] => [[]]
  | list :: lists => list.flatMap fun item => (choices lists).map (item :: ·)

theorem length_choices (lists : List (List α)) :
    (choices lists).length = (lists.map List.length).prod := by
  induction lists with
  | nil => rfl
  | cons list lists ih => simp [choices, length_flatMap, ih]

/-- The items at some positions. -/
def chosenAt : List (List α) → List Nat → Option (List α)
  | list :: lists, position :: positions =>
    list[position]?.bind fun item => (chosenAt lists positions).map (item :: ·)
  | _, _ => some []

/-- Advances the positions by one, and tells whether all of them have wrapped. -/
def advance : List (List α) → List Nat → List Nat × Bool
  | list :: lists, position :: positions =>
    let next := advance lists positions
    if !next.2 then (position :: next.1, false)
    else if position + 1 < list.length then ((position + 1) :: next.1, false)
    else (0 :: next.1, true)
  | _, _ => ([], true)

/-- Writes what stands at so many positions, one after another. -/
def writeOut (write : List Nat → Option β) (lists : List (List α)) :
    Nat → List Nat → Option (List β)
  | 0, _ => some []
  | wanted + 1, positions =>
    (write positions).bind fun first =>
      (writeOut write lists wanted (advance lists positions).1).map (first :: ·)

/-- The choices from some positions on. -/
def choicesFrom : List (List α) → List Nat → List (List α)
  | list :: lists, position :: positions =>
    (list[position]?.toList.flatMap fun item => (choicesFrom lists positions).map (item :: ·)) ++
      (list.drop (position + 1)).flatMap fun item => (choices lists).map (item :: ·)
  | _, _ => [[]]

/-- Each position lies in its list. -/
abbrev Inside (lists : List (List α)) (positions : List Nat) : Prop :=
  List.Forall₂ (fun list position => position < list.length) lists positions

variable {lists : List (List α)} {positions : List Nat}

theorem inside_zero (nonempty : ∀ list ∈ lists, list ≠ []) :
    Inside lists (List.replicate lists.length 0) := by
  induction lists with
  | nil => exact .nil
  | cons list lists ih =>
    exact .cons (length_pos_iff.mpr (nonempty list mem_cons_self))
      (ih fun other member => nonempty other (mem_cons_of_mem _ member))

theorem choicesFrom_zero (inside : Inside lists positions) (zero : ∀ place ∈ positions, place = 0) :
    choicesFrom lists positions = choices lists := by
  induction inside with
  | nil => rfl
  | @cons list position lists positions here _ ih =>
    obtain rfl := zero position mem_cons_self
    rw [choicesFrom, ih fun place member => zero place (mem_cons_of_mem _ member), choices]
    cases list with
    | nil => cases here
    | cons => simp

/-- One step: the choice at the positions comes first, and the rest follow from the next ones. -/
theorem choicesFrom_eq (inside : Inside lists positions) :
    Inside lists (advance lists positions).1 ∧
      ((advance lists positions).2 = true → ∀ place ∈ (advance lists positions).1, place = 0) ∧
      ∃ first, chosenAt lists positions = some first ∧
        choicesFrom lists positions = first :: bif (advance lists positions).2 then []
          else choicesFrom lists (advance lists positions).1 := by
  induction inside with
  | nil => exact ⟨.nil, by simp [advance], [], rfl, rfl⟩
  | @cons list position lists positions here rest ih =>
    obtain ⟨inside, zero, first, chosen, split⟩ := ih
    have item : list[position]? = some list[position] := getElem?_eq_getElem here
    simp only [advance, chosenAt, choicesFrom, item, chosen, split]
    generalize advance lists positions = next at inside zero
    obtain ⟨next, _ | _⟩ := next
    · simp [here, inside, choicesFrom]
    · have start : choicesFrom lists next = choices lists := choicesFrom_zero inside (zero rfl)
      by_cases more : position + 1 < list.length
      · rw [drop_eq_getElem_cons more, flatMap_cons]
        simp [more, inside, choicesFrom, start]
      · rw [drop_of_length_le (Nat.le_of_not_lt more)]
        simpa [more, inside, Nat.zero_lt_of_lt here] using zero

/-- **Counting writes the choices in order.** -/
theorem writeOut_eq {write : List Nat → Option β} {read : List α → β}
    (reads : ∀ positions, Inside lists positions →
      write positions = (chosenAt lists positions).map read) (inside : Inside lists positions)
    {wanted : Nat} (within : wanted ≤ (choicesFrom lists positions).length) :
    writeOut write lists wanted positions =
      some (((choicesFrom lists positions).take wanted).map read) := by
  induction wanted generalizing positions with
  | zero => rfl
  | succ wanted ih =>
    obtain ⟨next, _, first, chosen, split⟩ := choicesFrom_eq inside
    rw [split, length_cons, Nat.succ_le_succ_iff] at within
    rw [writeOut, reads positions inside, chosen, split]
    cases wrapped : (advance lists positions).2 with
    | true =>
      obtain rfl : wanted = 0 := by simpa [wrapped] using within
      rfl
    | false =>
      rw [wrapped] at within
      simp [ih next within]

end Fynd.Foundation
