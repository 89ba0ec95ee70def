import Fynd.Derived.RoundStream
import Fynd.Foundation.Broadcast
import Fynd.Foundation.Trace

/-!
# Edge weights and the derived data they read

A worker hears of the manager's rounds over a bounded channel. It rebuilds its edge weights once
every input has reported for the block it last heard of, at once when an input it needs fresh
completes, and when it learns that it lost events. After it has read everything, its weights are
those of the stored outputs, as long as no event of a round is lost while that round is still
underway. If one is, the reports that come later complete nothing, and the weights keep what was
stored when the loss was noticed.
-/

namespace Fynd

open Foundation List

variable {Output Weights : Type}

/-- Decides when, within a block, a worker rebuilds its edge weights from derived data. -/
structure WeightInputsRound where
  inputs : List ComputationId
  freshInputs : List ComputationId
  block : Option Nat
  reported : List ComputationId
  deriving DecidableEq, Repr

namespace WeightInputsRound

/-- Before the first block. -/
def new (inputs : List ComputationId) (requirements : ComputationRequirements) :
    WeightInputsRound where
  inputs := inputs
  freshInputs := inputs.filter fun id => id ∈ requirements.requireFresh
  block := none
  reported := []

/-- Notes that a computation reported for a block. -/
def recordReport (round : WeightInputsRound) (id : ComputationId) (block : Nat)
    (completed : Bool) : Bool × WeightInputsRound :=
  if round.block ≠ some block ∨ id ∉ round.inputs ∨ id ∈ round.reported then (false, round)
  else
    let next := { round with reported := round.reported ++ [id] }
    ((completed && id ∈ round.freshInputs) || next.reported.length = round.inputs.length, next)

/-- Records an event, and tells whether the worker should rebuild its edge weights now: a fresh
input completed, or the last input of the current block reported. -/
def record (round : WeightInputsRound) : DerivedDataEvent → Bool × WeightInputsRound
  | .newBlock block => (false, { round with block := some block, reported := [] })
  | .computationComplete id block _ => round.recordReport id block true
  | .computationFailed id block => round.recordReport id block false

end WeightInputsRound

/-- The outputs stored, by computation. -/
def storedOutputs (stored : StoredOutputs Output) (id : ComputationId) : Option Output :=
  (stored.lookup id).map Prod.fst

/-- A kind of edge weights, on the graph and market a worker has: the computations it reads, each
listed once, and the weights their outputs give. -/
structure EdgeWeights (Output Weights : Type) where
  inputs : List ComputationId
  distinct : inputs.Nodup
  fromDerived : (ComputationId → Option Output) → Weights
  reads : ∀ first second, (∀ id ∈ inputs, first id = second id) →
    fromDerived first = fromDerived second

/-- The store and the worker, with what the manager has done so far. -/
structure WeightWorker (Output Weights : Type) where
  log : RoundLog Output
  stored : StoredOutputs Output
  derivedEvents : Receiver DerivedDataEvent
  weightRound : WeightInputsRound
  weights : Weights

/-- A step of the manager, or the worker asks for the next event. -/
inductive WeightAction (Output : Type)
  | manager (step : RoundStep Output)
  | receive

namespace WeightWorker

variable (kind : EdgeWeights Output Weights)

/-- Nothing is stored and the weights are those of no outputs. -/
def start (requirements : ComputationRequirements) (capacity : Nat) :
    WeightWorker Output Weights where
  log := []
  stored := ∅
  derivedEvents := .subscribe capacity
  weightRound := .new kind.inputs requirements
  weights := kind.fromDerived (storedOutputs ∅)

section

variable (worker : WeightWorker Output Weights)

/-- Rebuilds the weights from what is stored. -/
def rebuild : WeightWorker Output Weights :=
  { worker with weights := kind.fromDerived (storedOutputs worker.stored) }

/-- What the manager does to the store and the channel. -/
def observe : RoundStep Output → WeightWorker Output Weights
  | .ran _ => worker
  | .persisted id output block =>
    { worker with stored := worker.stored.insert id (output, block) }
  | .announced event => { worker with derivedEvents := worker.derivedEvents.send event }

/-- The derived-data arm of the worker's loop. -/
def receive : WeightWorker Output Weights :=
  match worker.derivedEvents.recv with
  | (.value event, channel) =>
    let recorded := worker.weightRound.record event
    let next := { worker with derivedEvents := channel, weightRound := recorded.2 }
    if recorded.1 then next.rebuild kind else next
  | (.lagged _, channel) => { worker with derivedEvents := channel }.rebuild kind
  | (.closed, _) => worker
  | (.nothing, _) => worker

end

/-- One step of the two. -/
def step (worker : WeightWorker Output Weights) : WeightAction Output → WeightWorker Output Weights
  | .manager step => { worker.observe step with log := worker.log ++ [step] }
  | .receive => worker.receive kind

section

variable (worker : WeightWorker Output Weights)

/-- The worker has read all that was sent to it. -/
def Drained : Prop :=
  worker.derivedEvents.pending = [] ∧ worker.derivedEvents.skipped = 0

/-- The weights are those of the stored outputs. -/
def CaughtUp : Prop :=
  worker.weights = kind.fromDerived (storedOutputs worker.stored)

/-- A step loses no event of the round it belongs to: a report finds room in the channel, or the
round's block is still unread behind the event that is dropped. -/
def KeepsRound : WeightAction Output → Prop
  | .manager (.announced (.newBlock _)) => True
  | .manager (.announced _) =>
    worker.derivedEvents.pending.length < worker.derivedEvents.capacity ∨
      ∃ block, .newBlock block ∈ worker.derivedEvents.pending.tail
  | .manager (.ran _) => True
  | .manager (.persisted _ _ _) => True
  | .receive => True

end

end WeightWorker

/-! ## One report -/

/-- The computation an event reports on, the block, and whether it completed. -/
def DerivedDataEvent.report : DerivedDataEvent → Option (ComputationId × Nat × Bool)
  | .newBlock _ => none
  | .computationComplete id block _ => some (id, block, true)
  | .computationFailed id block => some (id, block, false)

/-- Notes that list inputs, none twice. -/
structure WeightInputsRound.Orderly (round : WeightInputsRound) : Prop where
  distinct : round.inputs.Nodup
  once : round.reported.Nodup
  within : round.reported ⊆ round.inputs

namespace WeightInputsRound.Orderly

variable {round : WeightInputsRound} (orderly : round.Orderly) {id : ComputationId} {block : Nat}
  {completed : Bool}
include orderly

private theorem length_eq_iff (listed : id ∈ round.inputs) (new : id ∉ round.reported) :
    (round.reported ++ [id]).length = round.inputs.length ↔
      ∀ input ∈ round.inputs, input = id ∨ input ∈ round.reported := by
  have once : (round.reported ++ [id]).Nodup := by
    rw [← concat_eq_append]
    exact orderly.once.concat new
  have within : round.reported ++ [id] ⊆ round.inputs :=
    append_subset.mpr ⟨orderly.within, cons_subset.mpr ⟨listed, nil_subset _⟩⟩
  constructor
  · intro same input member
    have among := ((once.subperm within).perm_of_length_le same.ge).mem_iff.mpr member
    rw [mem_append, mem_singleton] at among
    exact among.symm
  · intro all
    refine Nat.le_antisymm (once.subperm within).length_le (orderly.distinct.subperm ?_).length_le
    intro input member
    rw [mem_append, mem_singleton]
    exact (all input member).symm

/-- A report calls for a rebuild if it is the first of an input for the block, and completes a fresh
input or leaves none missing. -/
theorem recordReport_fst_iff :
    (round.recordReport id block completed).1 = true ↔
      round.block = some block ∧ id ∈ round.inputs ∧ id ∉ round.reported ∧
        (completed = true ∧ id ∈ round.freshInputs ∨
          ∀ input ∈ round.inputs, input = id ∨ input ∈ round.reported) := by
  unfold WeightInputsRound.recordReport
  split
  · rename_i ignored
    refine iff_of_false Bool.false_ne_true fun due => ?_
    rcases ignored with other | unrelated | again
    · exact other due.1
    · exact unrelated due.2.1
    · exact due.2.2.1 again
  · rename_i taken
    simp only [not_or, not_not] at taken
    obtain ⟨current, listed, new⟩ := taken
    simp only [Bool.or_eq_true, Bool.and_eq_true, decide_eq_true_eq,
      orderly.length_eq_iff listed new, current, listed, new, not_false_eq_true, true_and]

theorem recordReport_snd : (round.recordReport id block completed).2.Orderly := by
  unfold WeightInputsRound.recordReport
  split
  · exact orderly
  · rename_i taken
    simp only [not_or, not_not] at taken
    refine ⟨orderly.distinct, ?_, append_subset.mpr
      ⟨orderly.within, cons_subset.mpr ⟨taken.2.1, nil_subset _⟩⟩⟩
    exact concat_eq_append ▸ orderly.once.concat taken.2.2

end WeightInputsRound.Orderly

variable (round : WeightInputsRound)

theorem WeightInputsRound.record_of_report {event : DerivedDataEvent} {id : ComputationId}
    {block : Nat} {completed : Bool} (reports : event.report = some (id, block, completed)) :
    round.record event = round.recordReport id block completed := by
  cases event with
  | newBlock => cases reports
  | computationComplete | computationFailed =>
    cases reports
    rfl

theorem WeightInputsRound.recordReport_kept (id : ComputationId) (block : Nat) (completed : Bool) :
    (round.recordReport id block completed).2.inputs = round.inputs ∧
      (round.recordReport id block completed).2.freshInputs = round.freshInputs ∧
        (round.recordReport id block completed).2.block = round.block := by
  unfold recordReport
  split <;> exact ⟨rfl, rfl, rfl⟩

theorem WeightInputsRound.mem_reported_iff {id other : ComputationId} {block : Nat}
    {completed : Bool} : other ∈ (round.recordReport id block completed).2.reported ↔
      other ∈ round.reported ∨ round.block = some block ∧ id ∈ round.inputs ∧ other = id := by
  unfold recordReport
  split
  · rename_i ignored
    refine (or_iff_left_of_imp ?_).symm
    rintro ⟨current, listed, rfl⟩
    exact (ignored.resolve_left (not_not_intro current)).resolve_left (not_not_intro listed)
  · rename_i taken
    simp only [not_or, not_not] at taken
    simp [taken.1, taken.2.1]

/-! ## What the worker has read of the round underway -/

/-- The ids some events report. -/
def reportedIds (events : List DerivedDataEvent) : List ComputationId :=
  events.filterMap DerivedDataEvent.reported

/-- The worker's notes after it read the first events of a round. -/
structure Notes (inputs : List ComputationId) (block : Nat) (read : List DerivedDataEvent)
    (round : WeightInputsRound) : Prop where
  sameInputs : round.inputs = inputs
  sameBlock : round.block = some block
  once : round.reported.Nodup
  reported : ∀ id, id ∈ round.reported ↔ id ∈ inputs ∧ id ∈ reportedIds read

section Notes

variable {inputs : List ComputationId} {block : Nat} {read : List DerivedDataEvent}
  {round : WeightInputsRound}

private theorem notes_newBlock (same : round.inputs = inputs) (block : Nat) :
    Notes inputs block [.newBlock block] (round.record (.newBlock block)).2 where
  sameInputs := same
  sameBlock := rfl
  once := nodup_nil
  reported := by
    intro id
    simp [WeightInputsRound.record, reportedIds, DerivedDataEvent.reported]

/-- One more report is noted. If all inputs have reported by it that had not before, the weights
are rebuilt. -/
theorem Notes.recordReport (notes : Notes inputs block read round) (distinct : inputs.Nodup)
    (id : ComputationId) (completed : Bool) {event : DerivedDataEvent}
    (named : event.reported = some id) :
    Notes inputs block (read ++ [event]) (round.recordReport id block completed).2 ∧
      ((∀ input ∈ inputs, input ∈ reportedIds (read ++ [event])) →
        (round.recordReport id block completed).1 = true ∨
          ∀ input ∈ inputs, input ∈ reportedIds read) := by
  have ids : reportedIds (read ++ [event]) = reportedIds read ++ [id] := by
    simp [reportedIds, named]
  have orderly : round.Orderly := by
    refine ⟨notes.sameInputs ▸ distinct, notes.once, fun other noted => ?_⟩
    rw [notes.sameInputs]
    exact ((notes.reported other).mp noted).1
  have kept := round.recordReport_kept id block completed
  refine ⟨⟨kept.1.trans notes.sameInputs, kept.2.2.trans notes.sameBlock,
    orderly.recordReport_snd.once, fun other => ?_⟩, fun all => ?_⟩
  · rw [round.mem_reported_iff, notes.reported, ids, mem_append, mem_singleton,
      notes.sameBlock, notes.sameInputs]
    constructor
    · rintro (⟨input, before⟩ | ⟨_, input, rfl⟩)
      · exact ⟨input, .inl before⟩
      · exact ⟨input, .inr rfl⟩
    · rintro ⟨input, before | rfl⟩
      · exact .inl ⟨input, before⟩
      · exact .inr ⟨rfl, input, rfl⟩
  · rw [ids] at all
    simp only [mem_append, mem_singleton] at all
    by_cases new : id ∈ inputs ∧ id ∉ round.reported
    · refine .inl (orderly.recordReport_fst_iff.mpr ⟨notes.sameBlock, notes.sameInputs ▸ new.1,
        new.2, .inr fun input member => ?_⟩)
      rw [notes.sameInputs] at member
      exact (all input member).symm.imp_right fun before => (notes.reported input).mpr
        ⟨member, before⟩
    · refine .inr fun input member => (all input member).elim (fun before => before) ?_
      rintro rfl
      have again := not_not.mp fun unreported => new ⟨member, unreported⟩
      exact ((notes.reported input).mp again).2

/-- Events of one round: the block, then reports for it. -/
def RoundEvents (block : Nat) (events : List DerivedDataEvent) : Prop :=
  ∀ event ∈ events, ∃ id, event.reported = some id ∧ (event = .computationFailed id block ∨
    ∃ failedItems, event = .computationComplete id block failedItems)

/-- A report of the round underway is noted. -/
theorem Notes.record (notes : Notes inputs block read round) (distinct : inputs.Nodup)
    {event : DerivedDataEvent} (belongs : RoundEvents block [event]) :
    Notes inputs block (read ++ [event]) (round.record event).2 ∧
      ((∀ input ∈ inputs, input ∈ reportedIds (read ++ [event])) →
        (round.record event).1 = true ∨ ∀ input ∈ inputs, input ∈ reportedIds read) := by
  obtain ⟨id, named, rfl | ⟨failedItems, rfl⟩⟩ := belongs event mem_cons_self
  · exact notes.recordReport distinct id false named
  · exact notes.recordReport distinct id true named

end Notes

/-! ## The invariant -/

private theorem RoundEvents.newBlock_notMem {block : Nat} {events : List DerivedDataEvent}
    (round : RoundEvents block events) (other : Nat) : .newBlock other ∉ events := by
  intro member
  obtain ⟨id, named, _⟩ := round _ member
  cases named

/-- Where the worker stands in the round underway. Either no block was announced yet, or the round's
events are all unread, behind whatever is left of earlier rounds, or it has read the first of them
and lost none. -/
inductive Standing (kind : EdgeWeights Output Weights) (worker : WeightWorker Output Weights) : Prop
  | idle (none : currentRound worker.log = []) (drained : worker.Drained)
      (caught : worker.CaughtUp kind)
  | unread (block : Nat) (reports old : List DerivedDataEvent)
      (current : currentRound worker.log = .newBlock block :: reports)
      (pending : worker.derivedEvents.pending = old ++ .newBlock block :: reports)
  | reading (block : Nat) (read : List DerivedDataEvent)
      (current : currentRound worker.log =
        .newBlock block :: (read ++ worker.derivedEvents.pending))
      (unlagged : worker.derivedEvents.skipped = 0)
      (notes : Notes kind.inputs block (.newBlock block :: read) worker.weightRound)
      (caught : (∀ input ∈ kind.inputs, input ∈ reportedIds read) → worker.CaughtUp kind)

/-- What holds between the worker and the manager. -/
structure Attends (kind : EdgeWeights Output Weights) (worker : WeightWorker Output Weights) :
    Prop where
  subscribed : worker.derivedEvents.closed = false
  inputs : worker.weightRound.inputs = kind.inputs
  built : ∃ outputs, worker.weights = kind.fromDerived outputs
  round : ∀ block reports, currentRound worker.log = .newBlock block :: reports →
    RoundEvents block reports
  standing : Standing kind worker

namespace WeightWorker

variable {kind : EdgeWeights Output Weights} {worker : WeightWorker Output Weights}

private theorem attends_start (kind : EdgeWeights Output Weights)
    (requirements : ComputationRequirements) (capacity : Nat) :
    Attends kind (start kind requirements capacity) where
  subscribed := rfl
  inputs := rfl
  built := ⟨_, rfl⟩
  round := by
    intro block reports current
    cases current
  standing := .idle rfl ⟨rfl, rfl⟩ rfl

private theorem caughtUp_of_inputs_nil
    (built : ∃ outputs, worker.weights = kind.fromDerived outputs) (none : kind.inputs = []) :
    worker.CaughtUp kind := by
  obtain ⟨outputs, same⟩ := built
  rw [CaughtUp, same]
  apply kind.reads
  simp [none]

private theorem send_of_room {channel : Receiver DerivedDataEvent}
    (subscribed : channel.closed = false) (room : channel.pending.length < channel.capacity)
    (event : DerivedDataEvent) :
    channel.send event = { channel with pending := channel.pending ++ [event] } := by
  simp [Receiver.send, subscribed, room]

private theorem pending_send {channel : Receiver DerivedDataEvent}
    (subscribed : channel.closed = false) (event : DerivedDataEvent) :
    (channel.send event).pending =
      (if channel.pending.length < channel.capacity then channel.pending
        else channel.pending.tail) ++ [event] := by
  simp only [Receiver.send, subscribed, Bool.false_eq_true, if_false]
  split <;> rfl

private theorem closed_send (channel : Receiver DerivedDataEvent) (event : DerivedDataEvent) :
    (channel.send event).closed = channel.closed := by
  unfold Receiver.send
  split
  · rfl
  · split <;> rfl

end WeightWorker

namespace Attends

open WeightWorker

variable {kind : EdgeWeights Output Weights} {worker : WeightWorker Output Weights}

section

variable (attends : Attends kind worker)
include attends

/-- A new block comes last in the channel. -/
theorem announceBlock (block : Nat) :
    Attends kind (worker.step kind (.manager (.announced (.newBlock block)))) where
  subscribed := (closed_send _ _).trans attends.subscribed
  inputs := attends.inputs
  built := attends.built
  round := by
    intro other reports current
    rw [show (worker.step kind (.manager (.announced (.newBlock block)))).log =
      worker.log ++ [.announced (.newBlock block)] from rfl, currentRound_concat] at current
    obtain ⟨_, rfl⟩ := List.cons.inj current
    intro event member
    cases member
  standing := .unread block [] _ (currentRound_concat _ _) (pending_send attends.subscribed _)

/-- A report of the round underway comes last in the channel, and no event of the round is lost. -/
theorem announceReport {event : DerivedDataEvent} {block : Nat}
    (belongs : RoundEvents block [event])
    (head : (currentRound worker.log).head? = some (.newBlock block))
    (keeps : worker.derivedEvents.pending.length < worker.derivedEvents.capacity ∨
      ∃ block, .newBlock block ∈ worker.derivedEvents.pending.tail) :
    Attends kind (worker.step kind (.manager (.announced event))) := by
  obtain ⟨reports, current⟩ := head?_eq_some_iff.mp head
  have plain : RoundStep.Plain (.announced event : RoundStep Output) := by
    intro other same
    cases same
    exact belongs.newBlock_notMem other mem_cons_self
  have grown : currentRound (worker.log ++ [.announced event]) =
      .newBlock block :: (reports ++ [event]) := by
    rw [currentRound_concat, noteStep_of_plain plain, current]
    rfl
  refine ⟨(closed_send _ _).trans attends.subscribed, attends.inputs, attends.built, ?_, ?_⟩
  · intro other events found
    obtain ⟨same, rfl⟩ := List.cons.inj (grown.symm.trans found)
    cases same
    exact forall_mem_append.mpr ⟨attends.round block reports current, belongs⟩
  · cases attends.standing with
    | idle none _ _ => rw [none] at current; cases current
    | unread number events old found pending =>
      obtain ⟨same, rfl⟩ := List.cons.inj (current.symm.trans found)
      cases same
      have sent := pending_send attends.subscribed event
      by_cases room : worker.derivedEvents.pending.length < worker.derivedEvents.capacity
      · refine .unread block _ old grown (sent.trans ?_)
        rw [if_pos room, pending, append_assoc, cons_append]
      · obtain ⟨other, behind⟩ := keeps.resolve_left room
        rw [if_neg room, pending] at sent
        rw [pending] at behind
        cases old with
        | nil =>
          exact absurd behind ((attends.round block reports current).newBlock_notMem other)
        | cons first old => exact .unread block _ old grown (sent.trans (by simp))
    | reading number read found unlagged notes caught =>
      obtain ⟨same, rfl⟩ := List.cons.inj (current.symm.trans found)
      cases same
      have room : worker.derivedEvents.pending.length < worker.derivedEvents.capacity := by
        refine keeps.resolve_right ?_
        rintro ⟨other, behind⟩
        exact (attends.round block _ current).newBlock_notMem other
          (mem_append_right _ (mem_of_mem_tail behind))
      have sent := send_of_room attends.subscribed room event
      refine .reading block read (grown.trans ?_)
        ((congrArg Receiver.skipped sent).trans unlagged) notes caught
      rw [append_assoc, step, observe, sent]

/-- A step that announces nothing keeps the outputs of the computations already reported. -/
theorem unannounced {log : RoundLog Output} {stored : StoredOutputs Output}
    (same : currentRound log = currentRound worker.log)
    (kept : ∀ id, (currentRound worker.log = [] ∨ id ∈ reportedIds (currentRound worker.log)) →
      storedOutputs worker.stored id = storedOutputs stored id) :
    Attends kind { worker with log, stored } := by
  refine { attends with round := same ▸ attends.round, standing := ?_ }
  cases attends.standing with
  | idle none drained caught =>
    exact .idle (same.trans none) drained
      (caught.trans (kind.reads _ _ fun input _ => kept input (.inl none)))
  | unread block reports old found pending =>
    exact .unread block reports old (same.trans found) pending
  | reading block read found unlagged notes caught =>
    refine .reading block read (same.trans found) unlagged notes fun all =>
      (caught all).trans (kind.reads _ _ fun input member => kept input (.inr ?_))
    rw [found, reportedIds, filterMap_cons_none rfl, filterMap_append]
    exact mem_append_left _ (all input member)

/-- An output that is stored is not one that was read as reported. -/
theorem persist (id : ComputationId) (output : Output) (at_block : Nat)
    (underway : currentRound worker.log ≠ [])
    (unreported : id ∉ (currentRound worker.log).filterMap DerivedDataEvent.reported) :
    Attends kind (worker.step kind (.manager (.persisted id output at_block))) := by
  refine attends.unannounced (currentRound_concat _ _) fun other reported => ?_
  have differs : other ≠ id := by
    rintro rfl
    exact reported.elim underway unreported
  simp [storedOutputs, observe, AList.lookup_insert_ne differs]

/-- Rebuilt weights are up to date wherever the worker stands. -/
theorem rebuild : Attends kind (worker.rebuild kind) := by
  refine { attends with built := ⟨_, rfl⟩, standing := ?_ }
  cases attends.standing with
  | idle none drained _ => exact .idle none drained rfl
  | unread block reports old current pending => exact .unread block reports old current pending
  | reading block read current unlagged notes _ =>
    exact .reading block read current unlagged notes fun _ => rfl

/-- A loss is only learned of before the round's block is read. -/
theorem lagged (lags : worker.derivedEvents.skipped ≠ 0) :
    Attends kind { worker with derivedEvents := { worker.derivedEvents with skipped := 0 } } := by
  refine { attends with standing := ?_ }
  cases attends.standing with
  | idle _ drained _ => exact absurd drained.2 lags
  | unread block reports old current pending => exact .unread block reports old current pending
  | reading block read current unlagged _ _ => exact absurd unlagged lags

end

/-- The worker after it read an event. -/
def read (worker : WeightWorker Output Weights) (event : DerivedDataEvent)
    (later : List DerivedDataEvent) : WeightWorker Output Weights :=
  { worker with
    derivedEvents := { worker.derivedEvents with pending := later }
    weightRound := (worker.weightRound.record event).2 }

private theorem inputs_record (round : WeightInputsRound) (event : DerivedDataEvent) :
    (round.record event).2.inputs = round.inputs := by
  cases event with
  | newBlock => rfl
  | computationComplete id block => exact (round.recordReport_kept id block true).1
  | computationFailed id block => exact (round.recordReport_kept id block false).1

variable (attends : Attends kind worker)
include attends

/-- One event is read. If it completes the inputs, the weights are rebuilt. -/
theorem value {event : DerivedDataEvent} {later : List DerivedDataEvent}
    (unlagged : worker.derivedEvents.skipped = 0)
    (pending : worker.derivedEvents.pending = event :: later) :
    Attends kind (if (worker.weightRound.record event).1 then (read worker event later).rebuild kind
      else read worker event later) := by
  -- Without a rebuild the weights are only claimed to be up to date if they were before.
  have plainly (standing : (worker.weightRound.record event).1 = false →
      Standing kind (read worker event later))
      (rebuilt : (worker.weightRound.record event).1 = true →
        Standing kind ((read worker event later).rebuild kind)) :
      Attends kind (if (worker.weightRound.record event).1 then
        (read worker event later).rebuild kind else read worker event later) := by
    have same := (inputs_record worker.weightRound event).trans attends.inputs
    cases calls : (worker.weightRound.record event).1 with
    | false => exact { attends with inputs := same, standing := standing calls }
    | true => exact ⟨attends.subscribed, same, ⟨_, rfl⟩, attends.round, rebuilt calls⟩
  cases attends.standing with
  | idle _ drained _ =>
    rw [drained.1] at pending
    cases pending
  | unread block reports old current unread =>
    cases old with
    | nil =>
      obtain ⟨rfl, rfl⟩ := List.cons.inj (pending.symm.trans unread)
      refine plainly (fun _ => ?_) fun calls => by cases calls
      refine .reading block [] current unlagged (notes_newBlock attends.inputs block) ?_
      intro all
      refine caughtUp_of_inputs_nil attends.built ?_
      exact eq_nil_iff_forall_not_mem.mpr fun input member =>
        not_mem_nil (all input member)
    | cons first old =>
      obtain ⟨_, rfl⟩ := List.cons.inj (pending.symm.trans unread)
      exact plainly (fun _ => .unread block reports old current rfl)
        fun _ => .unread block reports old current rfl
  | reading block seen current _ notes caught =>
    have inside : event ∈ seen ++ worker.derivedEvents.pending := by simp [pending]
    obtain ⟨noted, completes⟩ := notes.record kind.distinct
      (forall_mem_singleton.mpr (attends.round block _ current event inside))
    have grown : currentRound worker.log = .newBlock block :: ((seen ++ [event]) ++ later) := by
      rw [current, pending, append_assoc, singleton_append]
    refine plainly (fun calls => ?_) fun _ => ?_
    · refine .reading block (seen ++ [event]) grown unlagged noted fun all => ?_
      obtain rebuilt | before := completes all
      · rw [calls] at rebuilt
        cases rebuilt
      · exact caught before
    · exact .reading block (seen ++ [event]) grown unlagged noted fun _ => rfl

/-- The worker reads one event or learns of a loss. -/
theorem receive : Attends kind (worker.receive kind) := by
  unfold WeightWorker.receive
  by_cases lags : worker.derivedEvents.skipped = 0
  · cases pending : worker.derivedEvents.pending with
    | nil =>
      rw [Receiver.recv_of_empty lags pending, attends.subscribed]
      exact attends
    | cons event later =>
      rw [Receiver.recv_of_pending lags pending]
      exact attends.value lags pending
  · rw [Receiver.recv_of_lag lags]
    exact (attends.lagged lags).rebuild

/-- A step of the manager's stream that loses no event of its round. -/
theorem manager {step : RoundStep Output} {nodes : List ComputationNode}
    (roundWise : RoundWise nodes worker.log step) (keeps : worker.KeepsRound (.manager step)) :
    Attends kind (worker.step kind (.manager step)) := by
  cases step with
  | ran id => exact attends.unannounced (currentRound_concat _ _) fun _ _ => rfl
  | persisted id output block => exact attends.persist id output block roundWise.1 roundWise.2
  | announced event =>
    cases event with
    | newBlock block => exact attends.announceBlock block
    | computationComplete id block failedItems =>
      exact attends.announceReport (forall_mem_singleton.mpr
        ⟨id, rfl, .inr ⟨failedItems, rfl⟩⟩) roundWise.1 keeps
    | computationFailed id block =>
      exact attends.announceReport (forall_mem_singleton.mpr ⟨id, rfl, .inl rfl⟩)
        roundWise.1 keeps

/-- At the end of a round a worker that has read everything is up to date. -/
theorem caughtUp {nodes : List ComputationNode}
    (registered : ∀ id ∈ kind.inputs, id ∈ nodes.map Prod.fst)
    (whole : WholeRounds nodes worker.log) (drained : worker.Drained) : worker.CaughtUp kind := by
  cases attends.standing with
  | idle _ _ caught => exact caught
  | unread block reports old current pending =>
    rw [drained.1] at pending
    simp at pending
  | reading block read current unlagged notes caught =>
    refine caught fun input member => ?_
    have underway : currentRound worker.log ≠ [] := by
      rw [current]
      exact cons_ne_nil _ _
    have reported := whole.reported underway input (registered input member)
    rw [current, drained.1, append_nil, filterMap_cons_none rfl] at reported
    exact reported

end Attends

/-! ## Whole runs -/

namespace WeightWorker

variable {kind : EdgeWeights Output Weights}

variable (worker : WeightWorker Output Weights) (action : WeightAction Output)

private theorem log_receive : (worker.receive kind).log = worker.log := by
  unfold receive
  split
  · dsimp only
    split <;> rfl
  · rfl
  · rfl
  · rfl

private theorem log_prefix_step : worker.log <+: (worker.step kind action).log := by
  cases action with
  | manager step => exact prefix_append _ _
  | receive => rw [step, log_receive]

/-- The worker after some steps. -/
def run (kind : EdgeWeights Output Weights) (requirements : ComputationRequirements)
    (capacity : Nat) (actions : List (WeightAction Output)) : WeightWorker Output Weights :=
  actions.foldl (step kind) (start kind requirements capacity)

private theorem capacity_step :
    (worker.step kind action).derivedEvents.capacity = worker.derivedEvents.capacity := by
  cases action with
  | manager step =>
    cases step with
    | ran | persisted => rfl
    | announced event =>
      simp only [WeightWorker.step, observe, Receiver.send]
      split
      · rfl
      · split <;> rfl
  | receive =>
    rw [WeightWorker.step, receive]
    by_cases lags : worker.derivedEvents.skipped = 0
    · cases pending : worker.derivedEvents.pending with
      | nil =>
        rw [Receiver.recv_of_empty lags pending]
        cases worker.derivedEvents.closed <;> rfl
      | cons event later =>
        rw [Receiver.recv_of_pending lags pending]
        dsimp only
        split <;> rfl
    · rw [Receiver.recv_of_lag lags]
      rfl

/-- Along a stream in which no step loses an event of its own round the worker attends to it.
Whether a step does may be judged from where the worker stands before it. -/
theorem attends_run {nodes : List ComputationNode} {log : RoundLog Output}
    (each : EachAfter (RoundWise nodes) log) (requirements : ComputationRequirements)
    (capacity : Nat) (actions : List (WeightAction Output))
    (begun : (run kind requirements capacity actions).log <+: log)
    (keeps : ∀ entry ∈ traceFold (step kind) (start kind requirements capacity) actions,
      Attends kind entry.1 → entry.1.derivedEvents.capacity = capacity →
        (∀ step, entry.2 = .manager step → RoundWise nodes entry.1.log step) →
          entry.1.KeepsRound entry.2) :
    Attends kind (run kind requirements capacity actions) := by
  have along := (Trace.fold (step kind) (start kind requirements capacity) actions).invariant
    (fun worker => worker.derivedEvents.capacity = capacity ∧
      (worker.log <+: log → Attends kind worker))
    ⟨rfl, fun _ => attends_start kind requirements capacity⟩ fun entry member held => by
      obtain ⟨worker, action⟩ := entry
      refine ⟨(capacity_step worker action).trans held.1, fun begun => ?_⟩
      have before := held.2 ((log_prefix_step worker action).trans begun)
      cases action with
      | receive => exact before.receive
      | manager step =>
        obtain ⟨rest, split⟩ := begun
        have roundWise : RoundWise nodes worker.log step := by
          refine each worker.log step rest ?_
          rw [← split]
          simp [WeightWorker.step]
        refine before.manager roundWise (keeps _ member before held.1 ?_)
        intro other same
        cases same
        exact roundWise
  exact along.2.2 begun

/-- A channel with room for a whole round loses no event of the round underway. -/
theorem keepsRound_of_fits {worker : WeightWorker Output Weights} (attends : Attends kind worker)
    {block : Nat} (head : (currentRound worker.log).head? = some (.newBlock block))
    (fits : (currentRound worker.log).length < worker.derivedEvents.capacity) :
    worker.derivedEvents.pending.length < worker.derivedEvents.capacity ∨
      ∃ block, .newBlock block ∈ worker.derivedEvents.pending.tail := by
  cases attends.standing with
  | idle none _ _ => rw [none] at head; cases head
  | unread number reports old current pending =>
    rw [current, length_cons] at fits
    cases old with
    | nil =>
      left
      rw [pending, nil_append, length_cons]
      omega
    | cons first old =>
      refine .inr ⟨number, ?_⟩
      rw [pending]
      simp
  | reading number read current _ _ _ =>
    rw [current, length_cons, length_append] at fits
    left
    omega

variable (nodes : List ComputationNode) (distinct : (nodes.map Prod.fst).Nodup)
  (registered : ∀ id ∈ kind.inputs, id ∈ nodes.map Prod.fst)
  (requirements : ComputationRequirements) (capacity : Nat)

include distinct registered

/-- **Edge weights catch up.** In every run over whole rounds of the manager in which no step loses
an event of its own round, a worker that has read everything has the weights of the stored
outputs. -/
theorem caughtUp_of_keepsRound (rounds : List (Round Output)) (actions : List (WeightAction Output))
    (emits : (run kind requirements capacity actions).log = (computeRounds nodes rounds).2)
    (keeps : ∀ entry ∈ traceFold (step kind) (start kind requirements capacity) actions,
      entry.1.KeepsRound entry.2) (drained : (run kind requirements capacity actions).Drained) :
    (run kind requirements capacity actions).CaughtUp kind := by
  have whole := wholeRounds_computeRounds distinct rounds
  have attends := attends_run whole.each requirements capacity actions
    (emits ▸ prefix_refl _) fun entry member _ _ _ => keeps entry member
  exact attends.caughtUp registered (emits ▸ whole) drained

/-- With room for a whole round the weights catch up in every run. -/
theorem caughtUp_of_fits (fits : nodes.length < capacity) (rounds : List (Round Output))
    (actions : List (WeightAction Output))
    (emits : (run kind requirements capacity actions).log = (computeRounds nodes rounds).2)
    (drained : (run kind requirements capacity actions).Drained) :
    (run kind requirements capacity actions).CaughtUp kind := by
  have whole := wholeRounds_computeRounds distinct rounds
  refine (attends_run whole.each requirements capacity actions (emits ▸ prefix_refl _)
    fun entry _ attends room roundWise => ?_).caughtUp registered (emits ▸ whole) drained
  obtain ⟨worker, action⟩ := entry
  cases action with
  | receive => trivial
  | manager step =>
    have follows := roundWise step rfl
    cases step with
    | ran | persisted => trivial
    | announced event =>
      cases event with
      | newBlock => trivial
      | computationComplete | computationFailed =>
        exact keepsRound_of_fits attends follows.1 (room ▸ follows.2.trans_lt fits)

end WeightWorker

section Samples

open WeightWorker

def WeightAction.managed : WeightAction Output → Option (RoundStep Output)
  | .manager step => some step
  | .receive => none

private theorem log_foldl_step (kind : EdgeWeights Output Weights)
    (actions : List (WeightAction Output)) (worker : WeightWorker Output Weights) :
    (actions.foldl (step kind) worker).log =
      worker.log ++ actions.filterMap WeightAction.managed := by
  induction actions generalizing worker with
  | nil => simp
  | cons action rest ih =>
    rw [foldl_cons, ih]
    cases action with
    | manager step => simp [WeightWorker.step, WeightAction.managed]
    | receive => rw [WeightWorker.step, log_receive, filterMap_cons_none rfl]

section

variable (steps : RoundLog Output)

/-- The worker reads after every step of the manager. -/
def attentive : List (WeightAction Output) :=
  steps.flatMap fun step => [.manager step, .receive]

private theorem filterMap_attentive :
    (attentive steps).filterMap WeightAction.managed = steps := by
  induction steps with
  | nil => rfl
  | cons step rest ih =>
    rw [attentive, flatMap_cons, filterMap_append, ← attentive, ih]
    rfl

private theorem filterMap_managed_manager :
    (steps.map WeightAction.manager).filterMap WeightAction.managed = steps := by
  rw [filterMap_map]
  exact filterMap_some

end

private theorem filterMap_managed_receive (count : Nat) :
    (List.replicate count (.receive : WeightAction Output)).filterMap WeightAction.managed =
      [] := by
  refine filterMap_eq_nil_iff.mpr fun action member => ?_
  rw [eq_of_mem_replicate member]
  rfl

/-- Weights that list the outputs of the three computations they read. -/
def liquidityWeights : EdgeWeights Nat (List (Option Nat)) where
  inputs := ["spot_prices", "token_prices", "pool_depths"]
  distinct := by decide
  fromDerived := fun outputs => ["spot_prices", "token_prices", "pool_depths"].map outputs
  reads := by
    intro first second same
    exact map_congr_left same

def stalePrices : ComputationRequirements := ⟨∅, {"token_prices"}⟩

/-- A round in which every computation gives the block's number. -/
def numberedRound (block : Nat) : Round Nat where
  lastUpdated := some block
  outcomes := fun _ => .ok ⟨block, []⟩

/-- The computations the weights read. The depths follow the spot prices. -/
def liquidityComputations : List ComputationNode :=
  [("spot_prices", ⟨∅, ∅⟩), ("token_prices", ⟨∅, ∅⟩), ("pool_depths", ⟨{"spot_prices"}, ∅⟩)]

def liquidityLog : List (RoundStep Nat) :=
  (computeRounds liquidityComputations [numberedRound 1, numberedRound 2]).2

/-- A worker that reads nothing until both rounds are over. -/
def laggingRun : List (WeightAction Nat) :=
  liquidityLog.map .manager ++ List.replicate 5 .receive

private theorem log_laggingRun :
    (run liquidityWeights stalePrices 4 laggingRun).log =
      (computeRounds liquidityComputations [numberedRound 1, numberedRound 2]).2 := by
  rw [run, log_foldl_step, laggingRun, filterMap_append, filterMap_managed_manager,
    filterMap_managed_receive, append_nil]
  rfl

/-- The worker loses the events of the first round and learns of the loss. The second round is
whole. -/
theorem lagging_worker_catches_up :
    (run liquidityWeights stalePrices 4 (liquidityLog.map .manager)).derivedEvents.skipped = 4 ∧
      (run liquidityWeights stalePrices 4 laggingRun).weights = [some 2, some 2, some 2] ∧
      (run liquidityWeights stalePrices 4 laggingRun).CaughtUp liquidityWeights := by
  refine ⟨by decide +kernel, by decide +kernel, ?_⟩
  refine caughtUp_of_keepsRound liquidityComputations (by decide) (by decide) stalePrices 4
    [numberedRound 1, numberedRound 2] laggingRun log_laggingRun ?_
      ⟨by decide +kernel, by decide +kernel⟩
  have kept : ∀ entry ∈ traceFold (step liquidityWeights) (start liquidityWeights stalePrices 4)
      laggingRun, entry.1.derivedEvents.pending.length < entry.1.derivedEvents.capacity ∨
        .newBlock 2 ∈ entry.1.derivedEvents.pending.tail ∨
        (entry.2.managed.bind RoundStep.event).bind DerivedDataEvent.report = none := by
    decide +kernel
  rintro ⟨worker, action⟩ member
  cases action with
  | receive => trivial
  | manager step =>
    cases step with
    | ran | persisted => trivial
    | announced event =>
      cases event with
      | newBlock => trivial
      | computationComplete | computationFailed =>
        obtain room | unread | never := kept _ member
        · exact .inl room
        · exact .inr ⟨2, unread⟩
        · cases never

/-- A worker with room for a round, which reads late. -/
theorem roomy_worker_catches_up :
    (run liquidityWeights stalePrices 4 laggingRun).CaughtUp liquidityWeights :=
  caughtUp_of_fits liquidityComputations (by decide) (by decide) stalePrices 4 (by decide)
    [numberedRound 1, numberedRound 2] laggingRun log_laggingRun
      ⟨by decide +kernel, by decide +kernel⟩

/-- Further computations that require nothing, with ids of two letters. -/
def customComputation (number : Nat) : ComputationNode :=
  (String.ofList ['c', Char.ofNat (48 + number)], ⟨∅, ∅⟩)

def crowdedComputations : List ComputationNode :=
  liquidityComputations ++ (List.range 62).map customComputation

def crowdedLog : List (RoundStep Nat) :=
  (computeRounds crowdedComputations [numberedRound 1, numberedRound 2]).2

/-- The worker keeps up with the first round. It reads nothing while the first stage of the second
round is reported, sixty-five events with the block, then learns of the loss and reads one event
before the depths are stored and reported. -/
def crowdedRun : List (WeightAction Nat) :=
  attentive (crowdedLog.take 196) ++ ((crowdedLog.drop 196).take 193).map .manager ++
    List.replicate 2 .receive ++ ((crowdedLog.drop 196).drop 193).map .manager ++
    List.replicate 64 .receive

/-- The worker's weights, those of the store, and what it has yet to read. -/
def crowdedOutcome : List (Option Nat) × List (Option Nat) × List DerivedDataEvent × Nat :=
  let worker := run liquidityWeights stalePrices 64 crowdedRun
  (worker.weights, liquidityWeights.fromDerived (storedOutputs worker.stored),
    worker.derivedEvents.pending, worker.derivedEvents.skipped)

/-- Once the worker has read everything, its weights still hold the depths of the first round. -/
theorem crowded_worker_keeps_old_depths :
    (run liquidityWeights stalePrices 64 crowdedRun).log =
        (computeRounds crowdedComputations [numberedRound 1, numberedRound 2]).2 ∧
      (run liquidityWeights stalePrices 64 crowdedRun).Drained ∧
      (run liquidityWeights stalePrices 64 crowdedRun).weights = [some 2, some 2, some 1] ∧
      ¬(run liquidityWeights stalePrices 64 crowdedRun).CaughtUp liquidityWeights := by
  have outcome : crowdedOutcome =
      ([some 2, some 2, some 1], [some 2, some 2, some 2], [], 0) := by decide +kernel
  simp only [crowdedOutcome, Prod.mk.injEq] at outcome
  obtain ⟨weights, stored, pending, skipped⟩ := outcome
  refine ⟨?_, ⟨pending, skipped⟩, weights, fun caught => ?_⟩
  · rw [run, log_foldl_step, crowdedRun]
    simp only [filterMap_append, filterMap_attentive, filterMap_managed_manager,
      filterMap_managed_receive, append_nil]
    rw [append_assoc, take_append_drop, take_append_drop]
    exact nil_append crowdedLog
  · rw [CaughtUp, weights, stored] at caught
    exact absurd caught (by decide)

end Samples

end Fynd
