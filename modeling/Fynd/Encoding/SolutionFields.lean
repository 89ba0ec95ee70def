import Fynd.Encoding.Encoder

/-!
# What a solution hook may change

The check of a hook compares serialized solutions, so that a field the encoder library adds later is
compared as well. It walks the fields of the original alone. All solutions serialize the same
fields, so nothing is missed: outside the two mutable fields a solution stays as it was.
-/

namespace Fynd

open Foundation List

variable {P : Type} [SerializeSolution P]

/-- Two solutions agree on every serialized field outside the mutable ones, share the states of
their swaps, and the second expects no less. -/
structure Solution.Framed (original hooked : Solution P) : Prop where
  fields : ∃ before after, original.serialize = .ok before ∧ hooked.serialize = .ok after ∧
    ∀ field, field ∉ hookMutableFields → after.lookup field = before.lookup field
  states : hooked.swaps.map SolutionSwap.stateLocation =
    original.swaps.map SolutionSwap.stateLocation
  raised : original.expectedAmountOut ≤ hooked.expectedAmountOut

/-! ## What the check finds -/

variable {original hooked : Solution P} {quote : OrderQuote P} {hook : SolutionHook P}

/-- A solution has serialized fields only if it serializes to an object. -/
theorem Solution.serialize_eq_ok {solution : Solution P}
    {fields : Map String (SerializeSolution.Value P)} (done : solution.serialize = .ok fields) :
    SerializeSolution.toValue solution = .ok (.object fields) := by
  unfold serialize at done
  split at done
  · next found =>
    rw [found, Except.ok.inj done]
  · exact nomatch done
  · exact nomatch done

/-- An accepted solution is the one the hook returned. The check has found no change in it, and it
expects no less. -/
theorem applySolutionHook_eq_ok (accepted : applySolutionHook hook quote original = .ok hooked) :
    hook quote original = .ok hooked ∧ changedSolutionField original hooked = .ok none ∧
      original.expectedAmountOut ≤ hooked.expectedAmountOut := by
  obtain ⟨returned, hooks, accepted⟩ := bind_eq_ok_iff.mp accepted
  obtain ⟨field, checked, accepted⟩ := bind_eq_ok_iff.mp accepted
  cases field with
  | some field => exact nomatch accepted
  | none =>
    dsimp only at accepted
    split_ifs at accepted with lowered
    obtain rfl := Except.ok.inj accepted
    exact ⟨hooks, checked, Nat.not_lt.mp lowered⟩

/-- A check that finds nothing has compared every field of the original, and the states of the
swaps pair by pair. -/
theorem changedSolutionField_eq_none (unchanged : changedSolutionField original hooked = .ok none) :
    ∃ before after, original.serialize = .ok before ∧ hooked.serialize = .ok after ∧
      (∀ field value, before.lookup field = some value → field ∉ hookMutableFields →
        after.lookup field = some value) ∧
      ∀ pair ∈ original.swaps.zip hooked.swaps, pair.1.stateLocation = pair.2.stateLocation := by
  obtain ⟨before, first, unchanged⟩ := bind_eq_ok_iff.mp unchanged
  obtain ⟨after, second, unchanged⟩ := bind_eq_ok_iff.mp unchanged
  refine ⟨before, after, first, second, ?_⟩
  dsimp only at unchanged
  split_ifs at unchanged with changed pairs
  · rw [Except.ok.inj unchanged] at changed
    exact nomatch changed
  · refine ⟨fun field value listed outside => ?_, by simpa using pairs⟩
    rw [Option.isSome_map, Bool.not_eq_true, Option.isSome_eq_false_iff,
      Option.isNone_iff_eq_none, find?_eq_none] at changed
    simpa [outside] using changed ⟨field, value⟩ (lookup_eq_some_iff.mp listed)
  · exact nomatch unchanged

section

variable (accepted : applySolutionHook hook quote original = .ok hooked)
include accepted

/-- An accepted solution has the swaps of the original with the same user data. -/
theorem userData_of_accepted :
    hooked.swaps.map SolutionSwap.userData = original.swaps.map SolutionSwap.userData := by
  obtain ⟨before, after, first, second, same, -⟩ :=
    changedSolutionField_eq_none (applySolutionHook_eq_ok accepted).2.1
  obtain ⟨value, listed, data⟩ := SerializeSolution.lists_swaps (Solution.serialize_eq_ok first)
  obtain ⟨other, found, otherData⟩ :=
    SerializeSolution.lists_swaps (Solution.serialize_eq_ok second)
  rw [same "swaps" value listed (by decide)] at found
  rw [← data, ← otherData, Option.some.inj found]

/-- The serialized swaps say that the lists of states compared have the same length. -/
theorem states_of_accepted :
    hooked.swaps.map SolutionSwap.stateLocation =
      original.swaps.map SolutionSwap.stateLocation := by
  obtain ⟨-, -, -, -, -, pairs⟩ :=
    changedSolutionField_eq_none (applySolutionHook_eq_ok accepted).2.1
  have length : hooked.swaps.length = original.swaps.length := by
    simpa using congrArg List.length (userData_of_accepted accepted)
  refine ext_getElem (by simpa using length) fun position inHooked inOriginal => ?_
  have pair := pairs _ (mem_iff_getElem.mpr
    ⟨position, by simpa [length] using inOriginal, rfl⟩)
  simpa using pair.symm

/-- An accepted solution agrees with the original on every field outside the mutable ones. -/
theorem fields_of_accepted :
    ∃ before after, original.serialize = .ok before ∧ hooked.serialize = .ok after ∧
      ∀ field, field ∉ hookMutableFields → after.lookup field = before.lookup field := by
  obtain ⟨before, after, first, second, same, -⟩ :=
    changedSolutionField_eq_none (applySolutionHook_eq_ok accepted).2.1
  refine ⟨before, after, first, second, fun field outside => ?_⟩
  cases listed : before.lookup field with
  | some value => exact same field value listed outside
  | none =>
    -- The walk does not see a field of the hooked solution alone; there is none.
    rw [AList.lookup_eq_none] at listed ⊢
    exact fun added => listed (SerializeSolution.same_fields (Solution.serialize_eq_ok first)
      (Solution.serialize_eq_ok second) field added)

/-- **What a hook can change.** A solution the check accepts agrees with the original on every
field outside the mutable ones, whichever of the two has it, and on the states of the swaps. It
expects no less. -/
theorem framed_of_accepted :
    original.Framed hooked :=
  ⟨fields_of_accepted accepted, states_of_accepted accepted,
    (applySolutionHook_eq_ok accepted).2.2⟩

end

/-! ## A raised amount and a subsidy -/

/-- A serialization for pools without a state: the receiver, the swaps by their user data, and the
signature of a subsidy. -/
instance : SerializeSolution Unit where
  Value := List (Option Bytes)
  toValue solution := .ok (.object (mapOfList [("receiver", [some solution.receiver]),
    ("swaps", solution.swaps.map SolutionSwap.userData),
    ("subsidy", [solution.subsidy.map SubsidyTerms.signed])]))
  userData := id
  same_fields := by
    rintro original hooked before after first second field listed
    obtain rfl := Serialized.object.inj (Except.ok.inj first)
    obtain rfl := Serialized.object.inj (Except.ok.inj second)
    simpa [mapOfList, AList.mem_keys] using listed
  lists_swaps := by
    rintro solution fields found
    obtain rfl := Serialized.object.inj (Except.ok.inj found)
    exact ⟨_, rfl, rfl⟩

/-- A swap without user data, its state at some place. -/
def swapAt (location : Nat) : SolutionSwap Unit :=
  ⟨⟨"p", "uniswap_v2", [0, 1], ∅⟩, ⟨0, 18⟩, ⟨1, 18⟩, 0, .zero false, some ⟨location, ()⟩, 9, none,
    none⟩

/-- A solution of two swaps. -/
def twoSwapSolution (expected : Nat) (subsidy : Option SubsidyTerms) : Solution Unit :=
  ⟨[], [7], 0, 1, 9, expected, 8, [swapAt 0, swapAt 1], .transferFrom, none, subsidy⟩

/-- A hook may raise the expected amount and attach a subsidy to a solution of two swaps. -/
theorem subsidized_framed :
    (twoSwapSolution 8 none).Framed (twoSwapSolution 9 (some ⟨1, [5]⟩)) :=
  @framed_of_accepted Unit _ _ _ ⟨"", .success, none, 9, 8, 0, 8, [], [7], none, none, none, none,
    none⟩ (fun _ _ => .ok (twoSwapSolution 9 (some ⟨1, [5]⟩))) rfl

end Fynd
