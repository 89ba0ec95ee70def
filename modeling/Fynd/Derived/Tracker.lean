import Mathlib.Data.Finset.Basic
import Mathlib.Data.Finset.Lattice.Basic
import Mathlib.Data.Finset.Insert

/-!
# Readiness of derived data

Each worker tracks which computations are ready. A fresh requirement is met by a
computation completed for the block that is tracked, a stale one by a computation that
completed for any block.
-/

namespace Fynd

abbrev ComputationId := String

/-- The computations an algorithm needs: of the current block, or of any block. -/
structure ComputationRequirements where
  requireFresh : Finset ComputationId
  allowStale : Finset ComputationId

/-- Whether anything is needed. -/
def ComputationRequirements.hasRequirements (requirements : ComputationRequirements) : Bool :=
  requirements.requireFresh.Nonempty ∨ requirements.allowStale.Nonempty

/-- Why an item of a computation failed. A target price is given by the bits of its double. -/
inductive FailedItemError
  | missingSimulationState
  | missingTokenMetadata
  | missingSpotPrice
  | invalidTargetPrice (bits : BitVec 64)
  | simulationFailed (message : String)
  | missingSellRoute (message : String)
  deriving DecidableEq, Repr

/-- An item that failed in a computation that completed. -/
structure FailedItem where
  key : String
  error : FailedItemError
  deriving DecidableEq, Repr

/-- What the computation manager tells the workers. -/
inductive DerivedDataEvent
  | newBlock (block : Nat)
  | computationComplete (computationId : ComputationId) (block : Nat)
      (failedItems : List FailedItem)
  | computationFailed (computationId : ComputationId) (block : Nat)
  deriving DecidableEq, Repr

/-- What a worker knows of the computations it needs. -/
structure ReadinessTracker where
  currentBlock : Option Nat
  readyForBlock : Finset ComputationId
  everComputed : Finset ComputationId
  failedForBlock : Finset ComputationId
  requirements : ComputationRequirements

namespace ReadinessTracker

/-- A tracker that has seen nothing. -/
def new (requirements : ComputationRequirements) : ReadinessTracker where
  currentBlock := none
  readyForBlock := ∅
  everComputed := ∅
  failedForBlock := ∅
  requirements := requirements

section

variable (tracker : ReadinessTracker)

/-- Tracks a block newer than the current one. What was computed once stays computed. -/
def onNewBlock (block : Nat) : ReadinessTracker :=
  if tracker.currentBlock.all (· < block) then
    { tracker with currentBlock := some block, readyForBlock := ∅, failedForBlock := ∅ }
  else tracker

/-- Notes that a fresh requirement failed for the current block. -/
def onComputationFailed (computationId : ComputationId) (block : Nat) : ReadinessTracker :=
  if computationId ∈ tracker.requirements.requireFresh ∧ tracker.currentBlock = some block then
    { tracker with failedForBlock := insert computationId tracker.failedForBlock }
  else tracker

/-- Notes that a computation completed. For a block older than the current one it counts for stale
requirements only. -/
def onComputationComplete (computationId : ComputationId) (block : Nat) : ReadinessTracker :=
  let known := { tracker with everComputed := insert computationId tracker.everComputed }
  if tracker.currentBlock.any (block < ·) then known
  else
    let moved := if known.currentBlock.all (· < block) then known.onNewBlock block else known
    { moved with readyForBlock := insert computationId moved.readyForBlock }

/-- Handles an event of the computation manager. -/
def handleEvent : DerivedDataEvent → ReadinessTracker
  | .newBlock block => tracker.onNewBlock block
  | .computationComplete computationId block _ => tracker.onComputationComplete computationId block
  | .computationFailed computationId block => tracker.onComputationFailed computationId block

/-- Whether a fresh requirement has failed for the current block. -/
def isBlockedForCurrentBlock : Bool :=
  ∃ id ∈ tracker.requirements.requireFresh, id ∈ tracker.failedForBlock

/-- Whether all requirements are met. -/
def isReady : Bool :=
  tracker.requirements.requireFresh ⊆ tracker.readyForBlock ∧
    tracker.requirements.allowStale ⊆ tracker.everComputed

/-- The requirements that are not met yet. -/
def missing : Finset ComputationId :=
  tracker.requirements.requireFresh \ tracker.readyForBlock ∪
    tracker.requirements.allowStale \ tracker.everComputed

/-- The tracker after some events. -/
def handleEvents (events : List DerivedDataEvent) : ReadinessTracker :=
  events.foldl handleEvent tracker

/-- An event completes a computation that the tracker needs. -/
def Completes : DerivedDataEvent → Prop
  | .computationComplete computationId _ _ =>
    computationId ∈ tracker.requirements.requireFresh ∪ tracker.requirements.allowStale
  | _ => False

instance : DecidablePred tracker.Completes := fun event =>
  match event with
  | .computationComplete _ _ _ => inferInstanceAs (Decidable (_ ∈ _))
  | .newBlock _ => inferInstanceAs (Decidable False)
  | .computationFailed _ _ => inferInstanceAs (Decidable False)

end

/-! ## What an event changes -/

section

variable (tracker : ReadinessTracker)

@[simp] theorem requirements_onNewBlock (block : Nat) :
    (tracker.onNewBlock block).requirements = tracker.requirements := by
  unfold onNewBlock
  split <;> rfl

variable {tracker} in
private theorem ready_of_onNewBlock {block : Nat} {id : ComputationId}
    (ready : id ∈ (tracker.onNewBlock block).readyForBlock) : id ∈ tracker.readyForBlock ∧
      (tracker.onNewBlock block).currentBlock = tracker.currentBlock := by
  unfold onNewBlock at ready ⊢
  split at ready
  · simp at ready
  · rename_i older
    rw [if_neg older]
    exact ⟨ready, rfl⟩

@[simp] theorem everComputed_onNewBlock (block : Nat) :
    (tracker.onNewBlock block).everComputed = tracker.everComputed := by
  unfold onNewBlock
  split <;> rfl

/-- Moving to a new block checks once more that the block is newer. -/
theorem onComputationComplete_eq (computationId : ComputationId) (block : Nat) :
    tracker.onComputationComplete computationId block =
      let known := { tracker with everComputed := insert computationId tracker.everComputed }
      if tracker.currentBlock.any (block < ·) then known
      else
        { known.onNewBlock block with
          readyForBlock := insert computationId (known.onNewBlock block).readyForBlock } := by
  by_cases newer : tracker.currentBlock.all (· < block) = true <;>
    simp [onComputationComplete, onNewBlock, newer]

@[simp] theorem requirements_handleEvent (event : DerivedDataEvent) :
    (tracker.handleEvent event).requirements = tracker.requirements := by
  cases event with
  | newBlock block => exact requirements_onNewBlock tracker block
  | computationComplete computationId block failedItems =>
    simp only [handleEvent, onComputationComplete_eq]
    split
    · rfl
    · exact requirements_onNewBlock _ block
  | computationFailed computationId block =>
    simp only [handleEvent, onComputationFailed]
    split <;> rfl

end

variable {tracker : ReadinessTracker} {event : DerivedDataEvent}

private theorem mem_of_mem_handleEvent (quiet : ¬ tracker.Completes event) {id : ComputationId}
    (needed : id ∈ tracker.requirements.requireFresh ∪ tracker.requirements.allowStale) :
    (id ∈ (tracker.handleEvent event).readyForBlock → id ∈ tracker.readyForBlock) ∧
      (id ∈ (tracker.handleEvent event).everComputed → id ∈ tracker.everComputed) := by
  cases event with
  | newBlock block =>
    refine ⟨fun member => (ready_of_onNewBlock member).1, fun member => ?_⟩
    rwa [handleEvent, everComputed_onNewBlock] at member
  | computationFailed computationId block =>
    simp only [handleEvent, onComputationFailed]
    split <;> exact ⟨fun member => member, fun member => member⟩
  | computationComplete computationId block failedItems =>
    have apart : id ≠ computationId := by
      intro same
      subst same
      exact quiet needed
    simp only [handleEvent, onComputationComplete_eq]
    split
    · exact ⟨fun member => member, fun member => Finset.mem_of_mem_insert_of_ne member apart⟩
    · refine ⟨fun member => ?_, fun member => ?_⟩
      · exact (ready_of_onNewBlock (Finset.mem_of_mem_insert_of_ne member apart)).1
      · rw [everComputed_onNewBlock] at member
        exact Finset.mem_of_mem_insert_of_ne member apart

/-- A computation is ready for a block because it was, or because it completed for that block. -/
theorem ready_of_handleEvent {id : ComputationId}
    (ready : id ∈ (tracker.handleEvent event).readyForBlock) : (id ∈ tracker.readyForBlock ∧
        (tracker.handleEvent event).currentBlock = tracker.currentBlock) ∨
      ∃ block failedItems, event = .computationComplete id block failedItems ∧
        (tracker.handleEvent event).currentBlock = some block := by
  cases event with
  | newBlock block => exact .inl (ready_of_onNewBlock ready)
  | computationFailed computationId block =>
    simp only [handleEvent, onComputationFailed] at ready ⊢
    split <;> simp_all
  | computationComplete computationId block failedItems =>
    simp only [handleEvent, onComputationComplete_eq] at ready ⊢
    split at ready
    · rename_i older
      rw [if_pos older]
      exact .inl ⟨ready, rfl⟩
    · rename_i reached
      rw [if_neg reached]
      have current : (({ tracker with
          everComputed := insert computationId tracker.everComputed } :
            ReadinessTracker).onNewBlock block).currentBlock = some block := by
        unfold onNewBlock
        split
        · rfl
        · rename_i same
          cases held : tracker.currentBlock with
          | none => simp [held] at same
          | some now =>
            simp only [held, Option.any_some, Option.all_some,
              decide_eq_true_eq] at reached same
            exact congrArg some (by omega)
      rcases Finset.mem_insert.mp ready with rfl | kept
      · exact .inr ⟨block, failedItems, rfl, current⟩
      · exact .inl (ready_of_onNewBlock kept)

private theorem isReady_of_handleEvent (quiet : ¬ tracker.Completes event)
    (ready : (tracker.handleEvent event).isReady = true) : tracker.isReady = true := by
  simp only [isReady, requirements_handleEvent, decide_eq_true_eq] at ready ⊢
  obtain ⟨fresh, stale⟩ := ready
  refine ⟨fun id needed => ?_, fun id needed => ?_⟩
  · exact (mem_of_mem_handleEvent quiet (Finset.mem_union_left _ needed)).1 (fresh needed)
  · exact (mem_of_mem_handleEvent quiet (Finset.mem_union_right _ needed)).2 (stale needed)

theorem isReady_of_handleEvents {events : List DerivedDataEvent}
    (quiet : ∀ event ∈ events, ¬ tracker.Completes event)
    (ready : (tracker.handleEvents events).isReady = true) : tracker.isReady = true := by
  induction events generalizing tracker with
  | nil => exact ready
  | cons event rest ih =>
    apply isReady_of_handleEvent (quiet event List.mem_cons_self)
    apply ih _ ready
    intro later member completes
    apply quiet later (List.mem_cons_of_mem _ member)
    cases later with
    | newBlock | computationFailed => exact completes
    | computationComplete computationId block failedItems =>
      simpa only [Completes, requirements_handleEvent] using completes

end ReadinessTracker

end Fynd
