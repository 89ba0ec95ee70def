import Fynd.Worker.WeightRounds

/-!
# When edge weights are rebuilt

The notes a worker keeps decide at which events it rebuilds its edge weights. Over every history
these are the first reports of an input for the block last announced that complete an input needed
fresh, or after which no input is missing. So a block leads to at most one rebuild for each fresh
input and one more.
-/

namespace Fynd

open Foundation List

/-- One of the events reports on a computation for a block. -/
def ReportedFor (block : Nat) (events : List DerivedDataEvent) (id : ComputationId) : Prop :=
  ∃ event ∈ events, ∃ completed, event.report = some (id, block, completed)

/-- One more event after the block that was announced last. -/
def noteEvent (last : Option (Nat × List DerivedDataEvent)) :
    DerivedDataEvent → Option (Nat × List DerivedDataEvent)
  | .newBlock block => some (block, [])
  | event => last.map fun entry => (entry.1, entry.2 ++ [event])

/-- The block that was announced last, and the events since. -/
def lastBlock (events : List DerivedDataEvent) : Option (Nat × List DerivedDataEvent) :=
  events.foldl noteEvent none

/-- After some events, an event is the first report of an input for the block last announced. It
completes an input that is needed fresh, or no other input is missing. -/
def RebuildDue (inputs : List ComputationId) (requirements : ComputationRequirements)
    (events : List DerivedDataEvent) (event : DerivedDataEvent) : Prop :=
  ∃ block since id completed, lastBlock events = some (block, since) ∧
    event.report = some (id, block, completed) ∧ id ∈ inputs ∧ ¬ReportedFor block since id ∧
      (completed = true ∧ id ∈ requirements.requireFresh ∨
        ∀ input ∈ inputs, input = id ∨ ReportedFor block since input)

namespace WeightInputsRound

/-- The notes after some events. -/
def recordAll (round : WeightInputsRound) (events : List DerivedDataEvent) : WeightInputsRound :=
  events.foldl (fun round event => (round.record event).2) round

/-- How often the weights are rebuilt at some events. -/
def rebuilds : WeightInputsRound → List DerivedDataEvent → Nat
  | _, [] => 0
  | round, event :: rest =>
    (if (round.record event).1 then 1 else 0) + (round.record event).2.rebuilds rest

end WeightInputsRound

/-- Weights are rebuilt exactly when that is due, and after each announced block at most once for
each fresh input and once more. -/
structure RebuildsWhenDue (inputs : List ComputationId) (requirements : ComputationRequirements) :
    Prop where
  exactly : ∀ events event,
    (((WeightInputsRound.new inputs requirements).recordAll events).record event).1 = true ↔
      RebuildDue inputs requirements events event
  bounded : ∀ before block since, (∀ other, .newBlock other ∉ since) →
    ((WeightInputsRound.new inputs requirements).recordAll
      (before ++ [.newBlock block])).rebuilds since ≤
        (inputs.filter fun id => id ∈ requirements.requireFresh).length + 1

/-! ## Whole histories -/

/-- The notes after a history: the inputs that are noted are those reported on for the last
block. -/
structure NotesHistory (inputs : List ComputationId) (requirements : ComputationRequirements)
    (events : List DerivedDataEvent) (round : WeightInputsRound) : Prop where
  orderly : round.Orderly
  sameInputs : round.inputs = inputs
  sameFresh : round.freshInputs = inputs.filter fun id => id ∈ requirements.requireFresh
  sameBlock : round.block = (lastBlock events).map Prod.fst
  reported : ∀ block since, lastBlock events = some (block, since) →
    ∀ id, id ∈ round.reported ↔ id ∈ inputs ∧ ReportedFor block since id

section History

variable {inputs : List ComputationId} {requirements : ComputationRequirements}
  {events : List DerivedDataEvent} {round : WeightInputsRound}

private theorem newBlock_or_report (event : DerivedDataEvent) : (∃ block, event = .newBlock block) ∨
    ∃ id block completed, event.report = some (id, block, completed) := by
  cases event with
  | newBlock block => exact .inl ⟨block, rfl⟩
  | computationComplete | computationFailed => exact .inr ⟨_, _, _, rfl⟩

/-- A report comes last among the events since the block. -/
theorem lastBlock_of_report {event : DerivedDataEvent} {report : ComputationId × Nat × Bool}
    (reports : event.report = some report) :
    lastBlock (events ++ [event]) =
      (lastBlock events).map fun entry => (entry.1, entry.2 ++ [event]) := by
  rw [lastBlock, foldl_append]
  cases event with
  | newBlock => cases reports
  | computationComplete | computationFailed => rfl

/-- One more event is noted. -/
theorem NotesHistory.record (notes : NotesHistory inputs requirements events round)
    (event : DerivedDataEvent) :
    NotesHistory inputs requirements (events ++ [event]) (round.record event).2 := by
  obtain ⟨block, rfl⟩ | ⟨id, block, completed, reports⟩ := newBlock_or_report event
  · have last : lastBlock (events ++ [.newBlock block]) = some (block, []) := by
      rw [lastBlock, foldl_append]
      rfl
    refine ⟨⟨notes.orderly.distinct, nodup_nil, nil_subset _⟩, notes.sameInputs,
      notes.sameFresh, by rw [last]; rfl, fun other since found id => ?_⟩
    cases last.symm.trans found
    simp [WeightInputsRound.record, ReportedFor]
  · have kept := round.recordReport_kept id block completed
    have last := @lastBlock_of_report events _ _ reports
    rw [round.record_of_report reports]
    refine ⟨notes.orderly.recordReport_snd, kept.1.trans notes.sameInputs,
      kept.2.1.trans notes.sameFresh, ?_, fun _ since found other => ?_⟩
    · rw [kept.2.2, notes.sameBlock, last, Option.map_map]
      rfl
    · obtain ⟨⟨now, before⟩, earlier, same⟩ := Option.map_eq_some_iff.mp (last.symm.trans found)
      cases same
      have more : ReportedFor now (before ++ [event]) other ↔
          ReportedFor now before other ∨ other = id ∧ now = block := by
        simp only [ReportedFor, mem_append, mem_singleton, or_and_right, exists_or,
          exists_eq_left, reports, Option.some.injEq, Prod.mk.injEq]
        refine or_congr_right ⟨?_, ?_⟩
        · rintro ⟨_, rfl, rfl, _⟩
          exact ⟨rfl, rfl⟩
        · rintro ⟨rfl, rfl⟩
          exact ⟨completed, rfl, rfl, rfl⟩
      rw [round.mem_reported_iff, notes.reported now before earlier, more, notes.sameBlock,
        earlier, notes.sameInputs, Option.map_some, Option.some.injEq]
      constructor
      · rintro (⟨listed, known⟩ | ⟨here, listed, rfl⟩)
        · exact ⟨listed, .inl known⟩
        · exact ⟨listed, .inr ⟨rfl, here⟩⟩
      · rintro ⟨listed, known | ⟨rfl, here⟩⟩
        · exact .inl ⟨listed, known⟩
        · exact .inr ⟨here, listed, rfl⟩

private theorem notesHistory_recordAll (distinct : inputs.Nodup)
    (requirements : ComputationRequirements) (events : List DerivedDataEvent) :
    NotesHistory inputs requirements events
      ((WeightInputsRound.new inputs requirements).recordAll events) := by
  induction events using List.reverseRecOn with
  | nil =>
    exact ⟨⟨distinct, nodup_nil, nil_subset _⟩, rfl, rfl, rfl, fun _ _ found => by
      cases found⟩
  | append_singleton events event ih =>
    rw [WeightInputsRound.recordAll, foldl_append]
    exact ih.record event

private theorem NotesHistory.record_fst_iff (notes : NotesHistory inputs requirements events round)
    (event : DerivedDataEvent) :
    (round.record event).1 = true ↔ RebuildDue inputs requirements events event := by
  obtain ⟨block, rfl⟩ | ⟨id, block, completed, reports⟩ := newBlock_or_report event
  · exact iff_of_false Bool.false_ne_true fun ⟨_, _, _, _, _, due, _⟩ => by cases due
  · rw [round.record_of_report reports, notes.orderly.recordReport_fst_iff, notes.sameInputs,
      notes.sameFresh, mem_filter, decide_eq_true_eq, notes.sameBlock]
    constructor
    · rintro ⟨current, listed, new, due⟩
      obtain ⟨⟨now, since⟩, last, rfl⟩ := Option.map_eq_some_iff.mp current
      have reported := notes.reported now since last
      refine ⟨now, since, id, completed, last, reports, listed,
        fun known => new ((reported id).mpr ⟨listed, known⟩), ?_⟩
      refine due.imp (And.imp_right And.right) fun all input member => ?_
      exact (all input member).imp_right fun noted => ((reported input).mp noted).2
    · rintro ⟨_, since, _, _, last, same, listed, new, due⟩
      cases reports.symm.trans same
      have reported := notes.reported block since last
      refine ⟨by rw [last]; rfl, listed, fun noted => new ((reported id).mp noted).2, ?_⟩
      refine due.imp (And.imp_right (And.intro listed)) fun all input member => ?_
      exact (all input member).imp_right fun known => (reported input).mpr ⟨member, known⟩

end History

/-! ## How many rebuilds a block leads to -/

/-- The rebuilds that the notes account for: one for each fresh input noted, and one when none is
missing. -/
def WeightInputsRound.accounted (round : WeightInputsRound) : Nat :=
  round.reported.countP (fun id => id ∈ round.freshInputs) +
    if round.reported.length = round.inputs.length then 1 else 0

namespace WeightInputsRound.Orderly

variable {round : WeightInputsRound} (orderly : round.Orderly)
include orderly

private theorem accounted_le : round.accounted ≤ round.freshInputs.length + 1 := by
  have noted : (round.reported.filter fun id => id ∈ round.freshInputs).Subperm
      round.freshInputs :=
    (orderly.once.filter _).subperm fun id member => of_decide_eq_true (mem_filter.mp member).2
  have counted := noted.length_le
  rw [← countP_eq_length_filter] at counted
  unfold accounted
  split <;> omega

private theorem accounted_recordReport (id : ComputationId) (block : Nat) (completed : Bool) :
    (if (round.recordReport id block completed).1 then 1 else 0) + round.accounted ≤
      (round.recordReport id block completed).2.accounted := by
  have next : (round.recordReport id block completed).2.Orderly := orderly.recordReport_snd
  have bound := (next.once.subperm next.within).length_le
  unfold WeightInputsRound.recordReport at bound ⊢
  split
  · simp
  · rename_i taken
    rw [if_neg taken] at bound
    simp only [accounted, countP_append, countP_singleton, length_append,
      length_singleton, Bool.or_eq_true, Bool.and_eq_true, decide_eq_true_eq] at bound ⊢
    have missing : round.reported.length ≠ round.inputs.length := by omega
    rw [if_neg missing]
    by_cases full : round.reported.length + 1 = round.inputs.length
    · rw [if_pos (.inr full), if_pos full]
      omega
    · rw [if_neg full]
      by_cases fresh : id ∈ round.freshInputs
      · rw [if_pos fresh]
        split <;> omega
      · rw [if_neg fresh, if_neg (by simp [fresh, full])]
        omega

private theorem rebuilds_le {since : List DerivedDataEvent}
    (clear : ∀ other, .newBlock other ∉ since) :
    round.rebuilds since + round.accounted ≤ round.freshInputs.length + 1 := by
  induction since generalizing round with
  | nil => simpa [rebuilds] using orderly.accounted_le
  | cons event rest ih =>
    obtain ⟨block, rfl⟩ | ⟨id, block, completed, reports⟩ := newBlock_or_report event
    · exact absurd mem_cons_self (clear block)
    · have next : (round.recordReport id block completed).2.Orderly := orderly.recordReport_snd
      have later := ih next fun other member => clear other (mem_cons_of_mem _ member)
      have step := orderly.accounted_recordReport id block completed
      rw [(round.recordReport_kept id block completed).2.1] at later
      rw [rebuilds, round.record_of_report reports]
      omega

end WeightInputsRound.Orderly

/-- **Weights are rebuilt exactly when due.** Over every history of events and for every list of
distinct inputs, whichever of them are needed fresh. -/
theorem weights_rebuilt_exactly_when_due {inputs : List ComputationId} (distinct : inputs.Nodup)
    (requirements : ComputationRequirements) : RebuildsWhenDue inputs requirements where
  exactly := fun events event =>
    (notesHistory_recordAll distinct requirements events).record_fst_iff event
  bounded := by
    intro before block since clear
    have notes := notesHistory_recordAll distinct requirements (before ++ [.newBlock block])
    have bound := notes.orderly.rebuilds_le clear
    rw [notes.sameFresh] at bound
    omega

/-- Of two inputs one is needed fresh. -/
theorem two_inputs_rebuilt_when_due :
    RebuildsWhenDue ["spot_prices", "pool_depths"] ⟨{"spot_prices"}, {"pool_depths"}⟩ :=
  weights_rebuilt_exactly_when_due (by decide) _

end Fynd
