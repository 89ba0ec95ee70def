import Mathlib.Data.List.Induction

/-!
# Entries that follow from earlier ones

A log in which every entry has a property of the entries before it.
-/

namespace Fynd.Foundation

open List

variable {α : Type*} {holds : List α → α → Prop}

/-- Every entry has a property of the entries before it. -/
def EachAfter (holds : List α → α → Prop) (entries : List α) : Prop :=
  ∀ front entry back, entries = front ++ entry :: back → holds front entry

namespace EachAfter

theorem nil : EachAfter holds [] := by
  intro front entry back split
  simp at split

/-- Entries are added that follow from those that are there. -/
theorem append {first second : List α} (each : EachAfter holds first)
    (more : ∀ front entry back, second = front ++ entry :: back → holds (first ++ front) entry) :
    EachAfter holds (first ++ second) := by
  intro front entry back split
  obtain ⟨middle, rfl, later⟩ | ⟨middle, rfl, later⟩ := append_eq_append_iff.mp split
  · exact more middle entry back later
  · cases middle with
    | nil =>
      rw [nil_append] at later
      simpa using more [] entry back later.symm
    | cons head tail =>
      rw [cons_append, List.cons.injEq] at later
      obtain ⟨rfl, rfl⟩ := later
      exact each front entry tail rfl

/-- One entry is added. -/
theorem concat {entries : List α} (each : EachAfter holds entries) {entry : α}
    (next : holds entries entry) : EachAfter holds (entries ++ [entry]) := by
  apply each.append
  intro front other back split
  obtain ⟨rfl, rfl, rfl⟩ : front = [] ∧ other = entry ∧ back = [] := by
    cases front with
    | nil => simpa [eq_comm] using split
    | cons head tail => simp at split
  rwa [append_nil]

theorem of_append {first second : List α} (each : EachAfter holds (first ++ second)) :
    EachAfter holds first := by
  intro front entry back split
  exact each front entry (back ++ second) (by rw [split, append_assoc, cons_append])

/-- What holds at first and is kept by every entry holds at the end. -/
theorem induct {motive : List α → Prop} {entries : List α} (each : EachAfter holds entries)
    (start : motive [])
    (step : ∀ front entry, motive front → holds front entry → motive (front ++ [entry])) :
    motive entries := by
  induction entries using List.reverseRecOn with
  | nil => exact start
  | append_singleton front entry ih => exact step front entry (ih each.of_append) (each _ _ [] rfl)

/-- The images of the entries that have one. -/
theorem filterMap {β : Type*} {image : α → Option β} {weaker : List β → β → Prop}
    {entries : List α} (each : EachAfter holds entries)
    (weaken : ∀ front entry shown, image entry = some shown → holds front entry →
      weaker (front.filterMap image) shown) :
    EachAfter weaker (entries.filterMap image) := by
  apply each.induct (motive := fun entries => EachAfter weaker (entries.filterMap image))
  · exact nil
  · intro front entry done next
    rw [filterMap_append]
    cases shown : image entry with
    | none => simpa [shown] using done
    | some value => simpa [shown] using done.concat (weaken front entry value shown next)

end EachAfter

end Fynd.Foundation
