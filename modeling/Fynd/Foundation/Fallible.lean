import Mathlib.Algebra.GroupWithZero.Nat
import Mathlib.Data.List.Forall2

/-!
# Computations that may fail

What a successful run of a sequence of fallible steps says about each of them.
-/

namespace Fynd.Foundation

open List

variable {ε α β : Type}

variable {first : Except ε α} {rest step : α → Except ε β} {inputs : List α} {outcome : Except ε α}

/-- A sequence succeeds exactly if both parts do. -/
theorem bind_eq_ok_iff {value : β} :
    (first >>= rest) = .ok value ↔ ∃ middle, first = .ok middle ∧ rest middle = .ok value := by
  cases first with
  | error error =>
    constructor
    · rintro ⟨⟩
    · rintro ⟨_, ⟨⟩, _⟩
  | ok middle =>
    refine ⟨fun done => ⟨middle, rfl, done⟩, ?_⟩
    rintro ⟨other, same, done⟩
    cases same
    exact done

/-- A sequence fails with its first part or with the second after it. -/
theorem bind_eq_error_iff {error : ε} : (first >>= rest) = .error error ↔
      first = .error error ∨ ∃ middle, first = .ok middle ∧ rest middle = .error error := by
  cases first with
  | error failure =>
    constructor
    · rintro ⟨⟩
      exact .inl rfl
    · rintro (⟨⟨⟩⟩ | ⟨_, ⟨⟩, _⟩)
      rfl
  | ok middle =>
    refine ⟨fun failed => .inr ⟨middle, rfl, failed⟩, ?_⟩
    rintro (⟨⟨⟩⟩ | ⟨_, ⟨⟩, failed⟩)
    exact failed

/-- A value that had to be there was there. -/
theorem elim_eq_ok {value : Option α} {error : ε} {found : α}
    (done : value.elim (.error error) (.ok : α → Except ε α) = .ok found) : value = some found := by
  cases value with
  | none => cases done
  | some other =>
    cases done
    rfl

/-- A success is not touched by a change of the error. -/
theorem mapError_eq_ok {ε' : Type} {outcome : Except ε α} {named : ε → ε'} {value : α}
    (done : outcome.mapError named = .ok value) : outcome = .ok value := by
  cases outcome with
  | error error => cases done
  | ok other =>
    cases done
    rfl

/-- The value of a computation that succeeds. -/
def okValue (outcome : Except ε α) (succeeds : outcome.toOption.isSome = true) : α :=
  outcome.toOption.get succeeds

theorem eq_ok_okValue (succeeds : outcome.toOption.isSome = true) :
    outcome = .ok (okValue outcome succeeds) := by
  cases outcome with
  | error error => cases succeeds
  | ok value => rfl

theorem eq_ok_of_toOption {value : α} (found : outcome.toOption = some value) :
    outcome = .ok value := by
  cases outcome with
  | error error => cases found
  | ok other =>
    cases found
    rfl

/-- A computed check of a success holds of its value. -/
theorem exists_ok_of_any {checked : α → Prop} [DecidablePred checked]
    (holds : outcome.toOption.any (fun value => decide (checked value)) = true) :
    ∃ value, outcome = .ok value ∧ checked value := by
  cases outcome with
  | error error => cases holds
  | ok value => exact ⟨value, rfl, by simpa [Except.toOption] using holds⟩

/-- A traversal succeeds exactly if every step does. -/
theorem mapM_eq_ok_iff {outputs : List β} : inputs.mapM step = .ok outputs ↔
      List.Forall₂ (fun input output => step input = .ok output) inputs outputs := by
  induction inputs generalizing outputs with
  | nil =>
    constructor
    · intro done
      obtain rfl : outputs = [] := by simpa [pure, Except.pure] using done.symm
      exact .nil
    · rintro ⟨⟩
      rfl
  | cons input rest ih =>
    simp only [mapM_cons, bind_eq_ok_iff, forall₂_cons_left_iff, ih]
    constructor
    · rintro ⟨output, first, others, following, done⟩
      cases done
      exact ⟨output, others, first, following, rfl⟩
    · rintro ⟨output, others, first, following, rfl⟩
      exact ⟨output, first, others, following, rfl⟩

theorem exists_mapM_eq_ok (each : ∀ input ∈ inputs, ∃ output, step input = .ok output) :
    ∃ outputs, inputs.mapM step = .ok outputs := by
  induction inputs with
  | nil => exact ⟨[], rfl⟩
  | cons input rest ih =>
    obtain ⟨output, first⟩ := each input mem_cons_self
    obtain ⟨outputs, later⟩ := ih fun other member => each other (mem_cons_of_mem _ member)
    exact ⟨output :: outputs, mapM_eq_ok_iff.mpr (.cons first (mapM_eq_ok_iff.mp later))⟩

/-- A traversal whose steps are known is a map. -/
theorem mapM_eq_ok_map {value : α → β} {inputs : List α}
    (each : ∀ input ∈ inputs, step input = .ok (value input)) :
    inputs.mapM step = .ok (inputs.map value) :=
  mapM_eq_ok_iff.mpr (forall₂_map_right_iff.mpr (forall₂_same.mpr each))

/-- A sequence of checks passes exactly if each one does. -/
theorem forM_eq_ok_iff {step : α → Except ε Unit} {inputs : List α} :
    inputs.forM step = .ok () ↔ ∀ input ∈ inputs, step input = .ok () := by
  induction inputs with
  | nil => simp [pure, Except.pure]
  | cons input rest ih =>
    rw [List.forM, bind_eq_ok_iff, forall_mem_cons, ← ih]
    exact ⟨fun ⟨_, first, later⟩ => ⟨first, later⟩, fun ⟨first, later⟩ => ⟨(), first, later⟩⟩

/-- A search for a refused input passes exactly if there is none. -/
theorem find?_elim_eq_ok_iff {refused : α → Bool} {error : α → ε} {inputs : List α} :
    ((inputs.find? refused).elim (.ok ()) fun input => .error (error input)) =
        (.ok () : Except ε Unit) ↔ ∀ input ∈ inputs, ¬ refused input = true := by
  rw [← find?_eq_none]
  cases inputs.find? refused with
  | none => simp
  | some input => simp

/-- **Invariant rule.** What every step keeps of a state and the inputs that are left holds at the
end of a run that succeeds. -/
theorem foldlM_invariant {σ : Type} {step : σ → α → Except ε σ} (holds : σ → List α → Prop)
    (keeps : ∀ state input rest next, holds state (input :: rest) → step state input = .ok next →
      holds next rest) {inputs : List α} {start final : σ} (begins : holds start inputs)
    (done : inputs.foldlM step start = .ok final) : holds final [] := by
  induction inputs generalizing start with
  | nil =>
    cases done
    exact begins
  | cons input rest ih =>
    rw [foldlM_cons] at done
    obtain ⟨next, first, later⟩ := bind_eq_ok_iff.mp done
    exact ih (keeps start input rest next begins first) later

/-- A view that every step respects is respected by the fold. -/
theorem foldlM_map_state {σ τ : Type} {step : σ → α → Except ε σ} {seen : τ → α → Except ε τ}
    {view : σ → τ} (commutes : ∀ state input, seen (view state) input = (step state input).map view)
    (inputs : List α) (state : σ) :
    inputs.foldlM seen (view state) = (inputs.foldlM step state).map view := by
  induction inputs generalizing state with
  | nil => rfl
  | cons input rest ih =>
    rw [foldlM_cons, foldlM_cons, commutes]
    cases step state input with
    | error error => rfl
    | ok next => exact ih next

variable {related : α → β → Prop} {inputs : List α} {outputs : List β}

section

variable (pairing : List.Forall₂ related inputs outputs)
include pairing

theorem exists_of_forall₂_right {output : β} (member : output ∈ outputs) :
    ∃ input ∈ inputs, related input output := by
  induction pairing with
  | nil => cases member
  | cons here _ ih =>
    obtain rfl | later := mem_cons.mp member
    · exact ⟨_, mem_cons_self, here⟩
    · obtain ⟨input, inList, paired⟩ := ih later
      exact ⟨input, mem_cons_of_mem _ inList, paired⟩

theorem exists_of_forall₂_left {input : α} (member : input ∈ inputs) :
    ∃ output, related input output := by
  obtain ⟨output, _, paired⟩ := exists_of_forall₂_right pairing.flip member
  exact ⟨output, paired⟩

theorem ne_nil_of_forall₂ (nonempty : outputs ≠ []) : inputs ≠ [] := by
  rintro rfl
  exact nonempty (forall₂_nil_left_iff.mp pairing)

end

/-- A pairing of two lists in a row falls into two pairings. -/
theorem exists_append_of_forall₂ {front back : List α}
    (pairing : List.Forall₂ related (front ++ back) outputs) :
    ∃ fore hind, outputs = fore ++ hind ∧ List.Forall₂ related front fore ∧
      List.Forall₂ related back hind := by
  induction front generalizing outputs with
  | nil => exact ⟨[], outputs, rfl, .nil, pairing⟩
  | cons input rest ih =>
    obtain ⟨output, others, here, later, rfl⟩ := forall₂_cons_left_iff.mp pairing
    obtain ⟨fore, hind, rfl, first, second⟩ := ih later
    exact ⟨output :: fore, hind, rfl, .cons here first, second⟩

/-- Paired lists agree in what their pairs agree in. -/
theorem map_eq_map_of_forall₂ {γ : Type} {left : α → γ} {right : β → γ}
    (pairing : List.Forall₂ related inputs outputs)
    (same : ∀ input output, related input output → left input = right output) :
    inputs.map left = outputs.map right := by
  induction pairing with
  | nil => rfl
  | cons here _ ih => rw [map_cons, map_cons, same _ _ here, ih]

/-- Partners that are selected together and count the same add up to the same. -/
theorem sum_filter_of_forall₂ {keepLeft : α → Bool} {keepRight : β → Bool} {left : α → Nat}
    {right : β → Nat} (pairing : List.Forall₂ related inputs outputs)
    (same : ∀ input output, related input output →
      keepLeft input = keepRight output ∧ left input = right output) :
    ((inputs.filter keepLeft).map left).sum = ((outputs.filter keepRight).map right).sum := by
  induction pairing with
  | nil => rfl
  | cons here _ ih =>
    obtain ⟨kept, counts⟩ := same _ _ here
    rw [filter_cons, filter_cons, kept]
    split
    · rw [map_cons, map_cons, sum_cons, sum_cons, counts, ih]
    · exact ih

end Fynd.Foundation
