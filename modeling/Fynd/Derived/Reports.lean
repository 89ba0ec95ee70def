import Fynd.Derived.Rounds

/-!
# Reports of the current block

What the manager announces over its rounds, and what a tracker makes of it. Several rounds may
name one block, and the sets of the tracker are emptied only when the block number grows.
-/

namespace Fynd

open Foundation List

variable {Output : Type}

/-- The event a step announces. -/
def RoundStep.event : RoundStep Output → Option DerivedDataEvent
  | .announced event => some event
  | _ => none

/-- What the manager announces over several rounds. -/
def announcements (nodes : List ComputationNode) (rounds : List (Round Output)) :
    List DerivedDataEvent :=
  (computeRounds nodes rounds).2.filterMap RoundStep.event

/-- How a computation ended. -/
inductive Report
  | complete
  | failed
  deriving DecidableEq, Repr

/-- The report an event makes of a computation for a block. -/
def reportOf (block : Nat) (id : ComputationId) : DerivedDataEvent → Option Report
  | .newBlock _ => none
  | .computationComplete other number _ =>
    if other = id ∧ number = block then some .complete else none
  | .computationFailed other number =>
    if other = id ∧ number = block then some .failed else none

/-- The latest report of a computation for a block. -/
def latestReport (events : List DerivedDataEvent) (block : Nat) (id : ComputationId) :
    Option Report :=
  (events.filterMap (reportOf block id)).getLast?

/-- A tracker is not both ready and blocked, and it is blocked exactly when the latest report of
some fresh requirement for its block is a failure. -/
structure AgreesWithReports (events : List DerivedDataEvent) (tracker : ReadinessTracker) :
    Prop where
  exclusive : ¬(tracker.isReady = true ∧ tracker.isBlockedForCurrentBlock = true)
  blocked : tracker.isBlockedForCurrentBlock = true ↔ ∃ block, tracker.currentBlock = some block ∧
    ∃ id ∈ tracker.requirements.requireFresh, latestReport events block id = some .failed

/-- A report that does not contradict an earlier one for the block of the tracker. -/
def ConsistentReport (tracker : ReadinessTracker) : DerivedDataEvent → Prop
  | .newBlock _ => True
  | .computationComplete id block _ => id ∈ tracker.requirements.requireFresh →
      tracker.currentBlock = some block → id ∉ tracker.failedForBlock
  | .computationFailed id block => id ∈ tracker.requirements.requireFresh →
      tracker.currentBlock = some block → id ∉ tracker.readyForBlock

/-! ## What a tracker knows of the reports -/

/-- An event reports only on blocks announced before. -/
def ReportsAnnounced (front : List DerivedDataEvent) (event : DerivedDataEvent) : Prop :=
  ∀ block id, reportOf block id event ≠ none → .newBlock block ∈ front

/-- The failures a tracker holds are the latest reports for its block, and it has reached every
block that was announced. -/
structure FollowsReports (events : List DerivedDataEvent) (tracker : ReadinessTracker) : Prop where
  failed : ∀ id ∈ tracker.requirements.requireFresh,
    (id ∈ tracker.failedForBlock ↔ ∃ block, tracker.currentBlock = some block ∧
      latestReport events block id = some .failed)
  apart : ∀ id ∈ tracker.requirements.requireFresh, id ∈ tracker.failedForBlock →
    id ∉ tracker.readyForBlock
  reached : ∀ block, .newBlock block ∈ events → ∃ now, tracker.currentBlock = some now ∧ block ≤ now
  announced : ∀ block id, latestReport events block id ≠ none → .newBlock block ∈ events

section Step

variable {events : List DerivedDataEvent} {tracker : ReadinessTracker} {block : Nat}
  {id other : ComputationId}

private theorem latestReport_append (events : List DerivedDataEvent) (event : DerivedDataEvent)
    (block : Nat) (id : ComputationId) :
    latestReport (events ++ [event]) block id =
      (reportOf block id event).or (latestReport events block id) := by
  unfold latestReport
  rw [filterMap_append, getLast?_append]
  cases shown : reportOf block id event <;> simp [shown]

private theorem FollowsReports.new (requirements : ComputationRequirements) :
    FollowsReports [] (.new requirements) := by
  constructor <;> simp [ReadinessTracker.new, latestReport]

private theorem FollowsReports.agrees (follows : FollowsReports events tracker) :
    AgreesWithReports events tracker := by
  constructor
  · intro both
    obtain ⟨id, fresh, failed⟩ := of_decide_eq_true both.2
    exact follows.apart id fresh failed ((of_decide_eq_true both.1).1 fresh)
  · rw [ReadinessTracker.isBlockedForCurrentBlock, decide_eq_true_eq]
    constructor
    · intro blocked
      obtain ⟨id, fresh, failed⟩ := blocked
      obtain ⟨block, current, latest⟩ := (follows.failed id fresh).mp failed
      exact ⟨block, current, id, fresh, latest⟩
    · intro latest
      obtain ⟨block, current, id, fresh, latest⟩ := latest
      exact ⟨id, fresh, (follows.failed id fresh).mpr ⟨block, current, latest⟩⟩

variable {event : DerivedDataEvent} {now : Nat}

section

variable (follows : FollowsReports events tracker)
include follows

private theorem FollowsReports.announced_append (named : ReportsAnnounced events event) :
    latestReport (events ++ [event]) block id ≠ none → .newBlock block ∈ events ++ [event] := by
  rw [latestReport_append]
  intro known
  cases shown : reportOf block id event with
  | none =>
    rw [shown, Option.none_or] at known
    exact mem_append_left _ (follows.announced block id known)
  | some report => exact mem_append_left _ (named block id (by simp [shown]))

private theorem FollowsReports.onNewBlock (block : Nat) :
    FollowsReports (events ++ [.newBlock block]) (tracker.onNewBlock block) := by
  have named : ReportsAnnounced events (.newBlock block) := fun _ _ shown => absurd rfl shown
  have latest (number : Nat) (id : ComputationId) :
      latestReport (events ++ [.newBlock block]) number id = latestReport events number id := by
    rw [latestReport_append]
    rfl
  unfold ReadinessTracker.onNewBlock
  split
  · rename_i newer
    have later (number : Nat) (known : .newBlock number ∈ events) : number < block := by
      obtain ⟨now, current, upto⟩ := follows.reached number known
      rw [current] at newer
      exact lt_of_le_of_lt upto (of_decide_eq_true newer)
    refine ⟨fun id fresh => ?_, by simp, fun number known => ⟨block, rfl, ?_⟩,
      fun number id => follows.announced_append named⟩
    · constructor
      · simp
      · intro held
        obtain ⟨number, same, failure⟩ := held
        obtain rfl := Option.some.inj same
        rw [latest] at failure
        have known := later block (follows.announced block id (by simp [failure]))
        omega
    · obtain before | now := mem_append.mp known
      · exact (later number before).le
      · simp only [mem_singleton, DerivedDataEvent.newBlock.injEq] at now
        exact now.le
  · rename_i older
    refine ⟨fun id fresh => ?_, follows.apart, fun number known => ?_,
      fun number id => follows.announced_append named⟩
    · simp only [latest]
      exact follows.failed id fresh
    · obtain before | now := mem_append.mp known
      · exact follows.reached number before
      · simp only [mem_singleton, DerivedDataEvent.newBlock.injEq] at now
        cases current : tracker.currentBlock with
        | none => simp [current] at older
        | some at_ =>
          refine ⟨at_, rfl, ?_⟩
          simpa [current, now] using older

/-- A report leaves the block where it is. -/
theorem FollowsReports.report {after : ReadinessTracker} (named : ReportsAnnounced events event)
    (report : ∀ block, event ≠ .newBlock block) (current : tracker.currentBlock = some now)
    (same : after.currentBlock = some now)
    (failed : ∀ id ∈ after.requirements.requireFresh, (id ∈ after.failedForBlock ↔
      (reportOf now id event).or (latestReport events now id) = some .failed))
    (apart : ∀ id ∈ after.requirements.requireFresh, id ∈ after.failedForBlock →
      id ∉ after.readyForBlock) :
    FollowsReports (events ++ [event]) after := by
  refine ⟨fun id fresh => ?_, apart, fun block known => ?_,
    fun block id => follows.announced_append named⟩
  · simp only [same, Option.some.injEq, exists_eq_left', latestReport_append]
    exact failed id fresh
  · obtain before | here := mem_append.mp known
    · obtain ⟨reached, held, upto⟩ := follows.reached block before
      rw [current] at held
      exact ⟨now, same, upto.trans (Option.some.inj held).ge⟩
    · exact absurd (mem_singleton.mp here).symm (report block)

private theorem FollowsReports.failed_iff (current : tracker.currentBlock = some now)
    (fresh : id ∈ tracker.requirements.requireFresh) :
    id ∈ tracker.failedForBlock ↔ latestReport events now id = some .failed := by
  rw [follows.failed id fresh]
  simp [current]

private theorem FollowsReports.onComputationFailed
    (named : ReportsAnnounced events (.computationFailed other block))
    (consistent : ConsistentReport tracker (.computationFailed other block)) :
    FollowsReports (events ++ [.computationFailed other block])
      (tracker.onComputationFailed other block) := by
  obtain ⟨now, current, _⟩ := follows.reached block (named block other (by simp [reportOf]))
  unfold ReadinessTracker.onComputationFailed
  split
  · rename_i counts
    obtain rfl : now = block := Option.some.inj (current.symm.trans counts.2)
    refine follows.report named (by simp) current current ?_ ?_
    · intro id fresh
      by_cases same : other = id
      · simp [reportOf, same]
      · simp [reportOf, same, Ne.symm same, follows.failed_iff current fresh]
    · intro id fresh failed
      obtain rfl | before := Finset.mem_insert.mp failed
      · exact consistent counts.1 counts.2
      · exact follows.apart id fresh before
  · rename_i ignored
    refine follows.report named (by simp) current current ?_ ?_
    · intro id fresh
      have silent : reportOf now id (.computationFailed other block) = none := by
        apply if_neg
        rintro ⟨rfl, rfl⟩
        exact ignored ⟨fresh, current⟩
      rw [silent, Option.none_or]
      exact follows.failed_iff current fresh
    · exact follows.apart

end

private theorem onComputationComplete_of_le (current : tracker.currentBlock = some now)
    (upto : block ≤ now) :
    tracker.onComputationComplete other block =
      { tracker with
        everComputed := insert other tracker.everComputed
        readyForBlock := if block = now then insert other tracker.readyForBlock
          else tracker.readyForBlock } := by
  obtain rfl | below := upto.eq_or_lt
  · simp [ReadinessTracker.onComputationComplete, current]
  · simp [ReadinessTracker.onComputationComplete, current, below, below.ne]

private theorem FollowsReports.onComputationComplete (follows : FollowsReports events tracker)
    {failedItems : List FailedItem}
    (named : ReportsAnnounced events (.computationComplete other block failedItems))
    (consistent : ConsistentReport tracker (.computationComplete other block failedItems)) :
    FollowsReports (events ++ [.computationComplete other block failedItems])
      (tracker.onComputationComplete other block) := by
  obtain ⟨now, current, upto⟩ := follows.reached block (named block other (by simp [reportOf]))
  rw [onComputationComplete_of_le current upto]
  refine follows.report named (by simp) current current ?_ ?_
  · intro id fresh
    by_cases reports : other = id ∧ block = now
    · obtain ⟨rfl, rfl⟩ := reports
      simp [reportOf, consistent fresh current]
    · simp [reportOf, reports, follows.failed_iff current fresh]
  · intro id fresh failed
    dsimp only
    split
    · rename_i here
      rw [Finset.mem_insert, not_or]
      refine ⟨fun same => ?_, follows.apart id fresh failed⟩
      subst same here
      exact consistent fresh current failed
    · exact follows.apart id fresh failed

private theorem FollowsReports.handleEvent (follows : FollowsReports events tracker)
    (named : ReportsAnnounced events event) (consistent : ConsistentReport tracker event) :
    FollowsReports (events ++ [event]) (tracker.handleEvent event) := by
  cases event with
  | newBlock block => exact follows.onNewBlock block
  | computationComplete other block failedItems =>
    exact follows.onComputationComplete named consistent
  | computationFailed other block => exact follows.onComputationFailed named consistent

end Step

/-! ## What the manager announces -/

section Announcing

variable {nodes : List ComputationNode}

section

variable {block : Nat} {stored : StoredOutputs Output} {progress : RoundProgress Output}
  (keeps : RoundKeeps nodes block stored nodes progress)
include keeps

private theorem RoundKeeps.opened_front :
    EachAfter (fun front entry => FollowsFrom nodes block stored front entry ∧
      (entry = .announced (.newBlock block) ∨ .announced (.newBlock block) ∈ front))
      progress.log := by
  intro front entry back split
  refine ⟨keeps.each front entry back split, ?_⟩
  have opened := keeps.opened
  rw [split] at opened
  cases front with
  | nil => exact .inl (Option.some.inj opened)
  | cons first later => exact .inr (mem_cons.mpr (.inl (Option.some.inj opened).symm))

/-- A round reports on its own block only. -/
theorem RoundKeeps.reportsAnnounced :
    EachAfter ReportsAnnounced (progress.log.filterMap RoundStep.event) := by
  refine keeps.opened_front.filterMap ?_
  intro front entry event shown held
  obtain ⟨follows, opened⟩ := held
  intro number id reports
  have announced : entry = .announced event := by
    cases entry with
    | announced other => rw [Option.some.inj shown]
    | ran | persisted => cases shown
  rw [announced] at follows opened
  have own : number = block ∧ ∀ other, event ≠ .newBlock other := by
    cases event with
    | newBlock other => exact absurd rfl reports
    | computationComplete other stage failedItems =>
      refine ⟨?_, by simp⟩
      simp only [reportOf, ne_eq, ite_eq_right_iff, reduceCtorEq, imp_false, not_not] at reports
      exact reports.2.symm.trans follows.1
    | computationFailed other stage =>
      refine ⟨?_, by simp⟩
      simp only [reportOf, ne_eq, ite_eq_right_iff, reduceCtorEq, imp_false, not_not] at reports
      exact reports.2.symm.trans follows
  obtain this | before := opened
  · exact absurd (RoundStep.announced.inj this) (own.2 block)
  · rw [own.1]
    exact mem_filterMap.mpr ⟨_, before, rfl⟩

end

private theorem each_reportsAnnounced (distinct : (nodes.map Prod.fst).Nodup)
    (rounds : List (Round Output)) : EachAfter ReportsAnnounced (announcements nodes rounds) := by
  unfold announcements
  induction rounds using List.reverseRecOn with
  | nil => exact EachAfter.nil
  | append_singleton earlier round ih =>
    rw [computeRounds, foldl_concat, ← computeRounds]
    unfold computeRound computeAll
    rw [filterMap_append]
    cases named : round.lastUpdated with
    | none => simpa using ih
    | some block =>
      apply ih.append
      intro front event back split number id reports
      have own := (roundKeeps_runRound distinct).reportsAnnounced front event back split
      exact mem_append_right _ (own number id reports)

/-- **A tracker agrees with the reports of its block**, if no fresh requirement is reported both
complete and failed for it. The events are any that the manager announces up to some point of its
rounds. -/
theorem tracker_agrees_with_reports (nodes : List ComputationNode)
    (distinct : (nodes.map Prod.fst).Nodup) (rounds : List (Round Output))
    (requirements : ComputationRequirements) (events later : List DerivedDataEvent)
    (emitted : announcements nodes rounds = events ++ later)
    (consistent : EachAfter (fun front event =>
      ConsistentReport ((ReadinessTracker.new requirements).handleEvents front) event) events) :
    AgreesWithReports events ((ReadinessTracker.new requirements).handleEvents events) := by
  have each := each_reportsAnnounced distinct rounds
  rw [emitted] at each
  have both : EachAfter (fun front event => ReportsAnnounced front event ∧
      ConsistentReport ((ReadinessTracker.new requirements).handleEvents front) event) events :=
    fun front event back split =>
      ⟨each.of_append front event back split, consistent front event back split⟩
  apply FollowsReports.agrees
  apply both.induct (motive := fun events =>
    FollowsReports events ((ReadinessTracker.new requirements).handleEvents events))
  · exact .new requirements
  · intro front event follows held
    rw [ReadinessTracker.handleEvents, foldl_concat]
    exact follows.handleEvent held.1 held.2

/-- A manager of the spot prices only. -/
def spotPricesOnly : List ComputationNode := [("spot_prices", ⟨∅, ∅⟩)]

/-- A round for some block in which the spot prices complete or fail. -/
def roundOfSpotPrices (block : Nat) (completes : Bool) : Round Nat where
  lastUpdated := some block
  outcomes := fun _ => if completes then .ok ⟨0, []⟩ else .error (.internal "no prices")

/-- A tracker that needs the spot prices of its block, after some events. -/
def spotPriceTracker (events : List DerivedDataEvent) : ReadinessTracker :=
  (ReadinessTracker.new ⟨{"spot_prices"}, ∅⟩).handleEvents events

/-- Two rounds of block 7 that fail, then a round of block 8 that completes. -/
def failingTwice : List (Round Nat) :=
  [roundOfSpotPrices 7 false, roundOfSpotPrices 7 false, roundOfSpotPrices 8 true]

/-- The events of two rounds of block 7 that fail. -/
def failedTwiceEvents : List DerivedDataEvent :=
  [.newBlock 7, .computationFailed "spot_prices" 7, .newBlock 7,
    .computationFailed "spot_prices" 7]

/-- The events of a round of block 8 that completes. -/
def completedEvents : List DerivedDataEvent :=
  [.newBlock 8, .computationComplete "spot_prices" 8 []]

/-- The tracker is blocked after both rounds of block 7 and ready after the round of block 8. -/
theorem failed_twice_agrees :
    (spotPriceTracker failedTwiceEvents).isBlockedForCurrentBlock = true ∧
      (spotPriceTracker (failedTwiceEvents ++ completedEvents)).isReady = true ∧
      AgreesWithReports failedTwiceEvents (spotPriceTracker failedTwiceEvents) ∧
      AgreesWithReports (failedTwiceEvents ++ completedEvents)
        (spotPriceTracker (failedTwiceEvents ++ completedEvents)) := by
  have failures : EachAfter (fun front event => ConsistentReport (spotPriceTracker front) event)
      failedTwiceEvents :=
    (((EachAfter.nil.concat trivial).concat fun _ _ => by decide).concat trivial).concat
      fun _ _ => by decide
  have emitted : announcements spotPricesOnly failingTwice = failedTwiceEvents ++ completedEvents :=
    by decide +kernel
  have opened : EachAfter (fun front event => ConsistentReport (spotPriceTracker front) event)
      (failedTwiceEvents ++ [.newBlock 8]) := failures.concat trivial
  refine ⟨by decide, by decide, ?_, ?_⟩
  · exact tracker_agrees_with_reports spotPricesOnly (by decide) failingTwice
      ⟨{"spot_prices"}, ∅⟩ _ _ emitted failures
  · exact tracker_agrees_with_reports spotPricesOnly (by decide) failingTwice
      ⟨{"spot_prices"}, ∅⟩ _ [] (by rw [emitted, append_nil])
      (opened.concat fun _ _ => by decide)

/-- Two rounds of one block, the second of which completes what failed in the first. -/
def repeatedRoundEvents : List DerivedDataEvent :=
  announcements spotPricesOnly [roundOfSpotPrices 7 false, roundOfSpotPrices 7 true]

/-- The tracker is ready and blocked at once, and it is blocked although the latest report of the
block is complete. -/
theorem ready_and_blocked_after_repeated_round :
    repeatedRoundEvents = [.newBlock 7, .computationFailed "spot_prices" 7, .newBlock 7,
        .computationComplete "spot_prices" 7 []] ∧
      (spotPriceTracker repeatedRoundEvents).isReady = true ∧
      (spotPriceTracker repeatedRoundEvents).isBlockedForCurrentBlock = true ∧
      latestReport repeatedRoundEvents 7 "spot_prices" = some .complete ∧
      ¬AgreesWithReports repeatedRoundEvents (spotPriceTracker repeatedRoundEvents) := by
  have ready : (spotPriceTracker repeatedRoundEvents).isReady = true := by decide +kernel
  have blocked : (spotPriceTracker repeatedRoundEvents).isBlockedForCurrentBlock = true := by
    decide +kernel
  refine ⟨by decide +kernel, ready, blocked, by decide +kernel, fun agrees => ?_⟩
  exact agrees.exclusive ⟨ready, blocked⟩

end Announcing

end Fynd
