import Fynd.Derived.Manager

/-!
# Whether completed spot prices are those of their block

A round prices what one event names and is announced for the block the market is at. The
prices are those of that block if every write waits until the round before it has read the market
and its event names what it changes. If writes also move to newer blocks, a worker whose tracker is
ready never solves on prices that lack a change of its block.
-/

namespace Fynd

open Foundation List

variable {P Rate : Type}

namespace PricingSystem

variable {decode : DirectionsDecoder} {maxSyncLag : Duration}
  {spotPrice : SpotPriceFn P Rate} {system : PricingSystem P Rate}

/-! ## Writes that say what they change -/

/-- The event of a message names every component of the market that the message changes the state
of, or the metadata of a token that it trades. -/
def Tells (decode : DirectionsDecoder) (maxSyncLag : Duration)
    (market : MarketData P) (message : FeedMessage P) : Prop :=
  let after := (market.handle decode maxSyncLag message).data
  ∀ id ∈ market.data.components.keys,
    (∀ event ∈ market.broadcast decode message, ¬ event.Names id ∧ id ∉ event.updatedComponents) →
      after.getSimulationState id = market.data.getSimulationState id ∧
        ∀ direction ∈ (market.data.directionsAt id).getD [],
          after.getToken direction.1 = market.data.getToken direction.1 ∧
            after.getToken direction.2 = market.data.getToken direction.2

variable {message : FeedMessage P} {block : Nat} {about : List (Option Nat)}

variable {stored : Map SpotPriceKey Rate} {changed : ChangedComponents} {key : SpotPriceKey}
  {market : MarketData P} {next : PricingSystem P Rate} {display : Address → String}

/-- A component that a message does not name keeps its prices. -/
theorem spotPriceOf_of_unnamed (tells : Tells decode maxSyncLag market message)
    (unnamed : ∀ event ∈ market.broadcast decode message, ¬ event.Names key.1 ∧
      key.1 ∉ event.updatedComponents) :
    spotPriceOf spotPrice (market.handle decode maxSyncLag message).data key =
      spotPriceOf spotPrice market.data key := by
  have announced := market.handle_announced decode maxSyncLag message
  have directions := announced.silent key.1 fun event sent => (unnamed event sent).1
  unfold spotPriceOf
  rw [directions]
  split
  · rename_i listed
    obtain ⟨held, found, member⟩ := (Option.any_eq_true _ _).mp listed
    obtain ⟨stored, present, _⟩ := Option.map_eq_some_iff.mp found
    have known : key.1 ∈ market.data.components.keys :=
      AList.mem_keys.mp (AList.lookup_isSome.mp (by rw [present]; rfl))
    obtain ⟨state, tokens⟩ := tells key.1 known unnamed
    rw [found, Option.getD_some] at tokens
    obtain ⟨tokenIn, tokenOut⟩ := tokens key.2 (of_decide_eq_true member)
    simp only [quotedPrice, state, tokenIn, tokenOut]
  · rfl

/-- Prices of the market before a message are outdated only in what its event names. -/
theorem outdated_of_tells (tells : Tells decode maxSyncLag market message)
    (exact : ∀ key, stored.lookup key = spotPriceOf spotPrice market.data key) {event : MarketEvent}
    (sent : market.broadcast decode message = some event) :
    Outdated spotPrice (market.handle decode maxSyncLag message).data stored
      (ChangedComponents.ofEvent event) := by
  have announced := market.handle_announced decode maxSyncLag message
  have only : ∀ other ∈ market.broadcast decode message, other = event := fun other also =>
    Option.some.inj (also.symm.trans sent)
  have unnamed : ∀ id, event.addedComponents.lookup id = none → id ∉ event.removedComponents →
      ¬ event.Names id := by
    rintro id absent kept (added | gone)
    · simp [absent] at added
    · exact kept gone
  refine ⟨fun key absent kept quiet => ?_, fun id topology found => ?_, fun id gone => ?_,
    fun key kept absent priced => ?_⟩
  · rw [exact, spotPriceOf_of_unnamed tells]
    intro other also
    rw [only other also]
    exact ⟨unnamed key.1 absent kept, quiet⟩
  · have listed := announced.listed event sent id topology found
    obtain ⟨stored, here, rfl⟩ := Option.map_eq_some_iff.mp listed
    rw [MarketState.directionsAt, here]
    rfl
  · have removals := announced.removals event sent
    rw [MarketState.directionsAt, announced.gone id (removals ▸ gone)]
    rfl
  · rw [announced.silent key.1 fun other also => only other also ▸ unnamed key.1 absent kept]
    rw [exact, spotPriceOf] at priced
    by_contra unlisted
    simp [unlisted] at priced

private theorem exact_of_isEmpty {market : MarketState P}
    (outdated : Outdated spotPrice market stored changed) (empty : changed.isEmpty = true)
    (key : SpotPriceKey) : stored.lookup key = spotPriceOf spotPrice market key := by
  simp only [ChangedComponents.isEmpty, Bool.and_eq_true, List.isEmpty_iff] at empty
  obtain ⟨⟨added, removed⟩, updated⟩ := empty
  apply outdated.unnamed key
  · rw [AList.lookup, added]
    rfl
  · simp [removed]
  · simp [updated]

/-! ## Rounds that keep up -/

variable (decode maxSyncLag system) in
/-- A write comes after every earlier change was taken and no round is about to read the market. It
names what it changes, and the market has a block. -/
def Sequenced : PricingAction P → Prop
  | .write message =>
    ((∀ changed block about, system.phase ≠ .started changed block about) ∧
        system.events.pending = []) ∧
      Tells decode maxSyncLag system.market message ∧
        (system.market.handle decode maxSyncLag message).data.lastUpdated.isSome = true
  | _ => True

section

variable (spotPrice : SpotPriceFn P Rate)

/-- Prices are behind the market by what is queued: nothing, or one event. -/
def Behind (market : MarketState P) (prices : Map SpotPriceKey Rate) : List QueuedEvent → Prop
  | [] => ∀ key, prices.lookup key = spotPriceOf spotPrice market key
  | [queued] => market.lastUpdated.isSome = true ∧
      Outdated spotPrice market prices (ChangedComponents.ofEvent queued.event)
  | _ => False

/-- How far the prices are behind the market, phase by phase. -/
def Tracked (system : PricingSystem P Rate) : Prop :=
  match system.phase with
  | .idle => Behind spotPrice system.market.data (system.stored.getD ∅) system.events.pending
  | .started changed block _ => system.events.pending = [] ∧ system.block = some block ∧
      Outdated spotPrice system.market.data (system.stored.getD ∅) changed
  | .computed _ output _ =>
    Behind spotPrice system.market.data output.data system.events.pending

/-- The manager has not lagged and its prices are tracked. -/
structure KeepsUp (system : PricingSystem P Rate) : Prop where
  room : 0 < system.events.capacity
  running : system.events.closed = false
  unlagged : system.events.skipped = 0
  tracked : system.Tracked spotPrice

end

section

variable (keepsUp : system.KeepsUp spotPrice)
include keepsUp

private theorem KeepsUp.send (empty : system.events.pending = []) (queued : QueuedEvent) :
    system.events.send queued = { system.events with pending := [queued] } := by
  simp [Receiver.send, empty, keepsUp.room, keepsUp.running]

/-- Prices that are exact before a write are behind by its event after it. -/
theorem KeepsUp.behind_write (empty : system.events.pending = [])
    (tells : Tells decode maxSyncLag system.market message)
    (dated : (system.market.handle decode maxSyncLag message).data.lastUpdated.isSome = true)
    {prices : Map SpotPriceKey Rate}
    (exact : Behind spotPrice system.market.data prices system.events.pending) :
    Behind spotPrice (system.market.handle decode maxSyncLag message).data prices
      (system.write decode maxSyncLag message).events.pending := by
  rw [empty] at exact
  unfold PricingSystem.write
  cases sent : system.market.broadcast decode message with
  | none =>
    rw [Option.elim_none, empty]
    intro key
    rw [exact, spotPriceOf_of_unnamed tells (by simp [sent])]
  | some event =>
    simp only [Option.elim_some, keepsUp.send empty]
    exact ⟨dated, outdated_of_tells tells exact sent⟩

private theorem KeepsUp.write (sequenced : system.Sequenced decode maxSyncLag (.write message)) :
    (system.write decode maxSyncLag message).KeepsUp spotPrice := by
  obtain ⟨⟨free, empty⟩, tells, dated⟩ := sequenced
  have channel : (system.write decode maxSyncLag message).events.capacity = system.events.capacity ∧
      (system.write decode maxSyncLag message).events.closed = system.events.closed ∧
      (system.write decode maxSyncLag message).events.skipped = system.events.skipped := by
    unfold PricingSystem.write
    cases system.market.broadcast decode message with
    | none => exact ⟨rfl, rfl, rfl⟩
    | some event => simp [keepsUp.send empty]
  refine ⟨channel.1 ▸ keepsUp.room, channel.2.1 ▸ keepsUp.running,
    channel.2.2 ▸ keepsUp.unlagged, ?_⟩
  have exact := keepsUp.tracked
  unfold Tracked at exact ⊢
  rw [phase_write, market_write, stored_write]
  cases phase : system.phase with
  | started changed block about => exact absurd phase (free changed block about)
  | idle =>
    rw [phase] at exact
    exact keepsUp.behind_write empty tells dated exact
  | computed block output about =>
    rw [phase] at exact
    exact keepsUp.behind_write empty tells dated exact

private theorem KeepsUp.take (idle : system.phase = .idle) : system.take.KeepsUp spotPrice := by
  have tracked := keepsUp.tracked
  rw [Tracked, idle] at tracked
  dsimp only at tracked
  cases pending : system.events.pending with
  | nil =>
    simp only [PricingSystem.take, Receiver.recv_of_empty keepsUp.unlagged pending,
      keepsUp.running]
    exact keepsUp
  | cons queued later =>
    rw [pending] at tracked
    cases later with
    | cons other rest => exact tracked.elim
    | nil =>
      obtain ⟨dated, outdated⟩ := tracked
      simp only [PricingSystem.take, Receiver.recv_of_pending keepsUp.unlagged pending]
      split
      · rename_i nothing
        refine { keepsUp with tracked := ?_ }
        simp only [Tracked, idle]
        exact exact_of_isEmpty outdated nothing
      · obtain ⟨info, found⟩ := Option.isSome_iff_exists.mp dated
        have now : ({ system with events := { system.events with pending := [] } } :
            PricingSystem P Rate).block = some info.number := by
          simp [PricingSystem.block, found]
        rw [startRound, now]
        exact { keepsUp with tracked := ⟨rfl, now, outdated⟩ }

/-- A round that is about to compute has nothing behind it and is at the market's block. -/
theorem KeepsUp.started {changed : ChangedComponents}
    (started : system.phase = .started changed block about) :
    system.events.pending = [] ∧ system.block = some block ∧
      Outdated spotPrice system.market.data (system.stored.getD ∅) changed := by
  have tracked := keepsUp.tracked
  rwa [Tracked, started] at tracked

private theorem KeepsUp.compute {changed : ChangedComponents}
    (started : system.phase = .started changed block about) (display : Address → String) :
    ({ system with
        phase := .computed block
          (computeSpotPrices spotPrice display system.market.data system.stored changed) about } :
      PricingSystem P Rate).KeepsUp spotPrice := by
  obtain ⟨pending, _, outdated⟩ := keepsUp.started started
  refine { keepsUp with tracked := ?_ }
  simp only [Tracked, pending]
  exact outdated.lookup_computeSpotPrices

/-- A sequenced step leaves the manager up to date. -/
theorem KeepsUp.step {action : PricingAction P}
    (sequenced : system.Sequenced decode maxSyncLag action) (display : Address → String) :
    (system.step decode maxSyncLag spotPrice display action).KeepsUp spotPrice := by
  unfold PricingSystem.step
  split
  · exact keepsUp.write sequenced
  · rename_i idle
    exact keepsUp.take idle
  · rename_i started
    exact keepsUp.compute started display
  · rename_i computed
    have tracked := keepsUp.tracked
    rw [Tracked, computed] at tracked
    exact { keepsUp with tracked := tracked }
  · split <;> exact { keepsUp with }
  · exact { keepsUp with }
  · exact { keepsUp with }
  · exact keepsUp

end

/-! ## What a ready tracker has seen -/

variable (decode maxSyncLag system) in
/-- Every write after the first moves the market to a newer block. -/
def Advancing : PricingAction P → Prop
  | .write message =>
    ∀ now ∈ system.market.data.lastUpdated,
      ∀ next ∈ (system.market.handle decode maxSyncLag message).data.lastUpdated,
        now.number < next.number
  | _ => True

instance (system : PricingSystem P Rate) :
    DecidablePred (system.Advancing decode maxSyncLag) := fun action =>
  match action with
  | .write message => inferInstanceAs (Decidable (∀ now ∈ system.market.data.lastUpdated,
      ∀ next ∈ (system.market.handle decode maxSyncLag message).data.lastUpdated,
        now.number < next.number))
  | .take | .compute | .persist | .announceOther _ | .receive | .lose => isTrue trivial

/-- Nothing of a block is left to process: the block is not ahead of the market, and what is
unprocessed is of later blocks. -/
structure Processed (system : PricingSystem P Rate) (block : Nat) : Prop where
  reached : ∃ now, system.block = some now ∧ block ≤ now
  later : ∀ writtenAt ∈ system.unprocessed, ∃ next, writtenAt = some next ∧ block < next

/-- The completions of spot prices that are announced, and the one the tracker rests on, are of
processed blocks. -/
structure Heard (system : PricingSystem P Rate) : Prop where
  announced : ∀ block failedItems,
    DerivedDataEvent.computationComplete spotPricesId block failedItems ∈ system.announced →
      system.Processed block
  tracked : spotPricesId ∈ system.tracker.readyForBlock →
    ∃ block, system.tracker.currentBlock = some block ∧ system.Processed block

private theorem Processed.of_subset (processed : system.Processed block)
    (same : next.block = system.block) (fewer : next.unprocessed ⊆ system.unprocessed) :
    next.Processed block := by
  refine ⟨same ▸ processed.reached, fun writtenAt member => ?_⟩
  exact processed.later writtenAt (fewer member)

/-- A round that has computed for a block is not ahead of the market, and what is queued is of later
blocks. -/
def ReadsAhead (system : PricingSystem P Rate) : Prop :=
  ∀ block output about, system.phase = .computed block output about →
    (∃ now, system.block = some now ∧ block ≤ now) ∧
      ∀ queued ∈ system.events.pending, ∃ next, queued.writtenAt = some next ∧ block < next

section Write

variable (sequenced : system.Sequenced decode maxSyncLag (.write message))
  (advancing : system.Advancing decode maxSyncLag (.write message))
include sequenced advancing

/-- A write moves the market to a newer block, and its event alone is queued for it. -/
theorem advance_write {now : Nat} (found : system.block = some now) :
    ∃ next, (system.write decode maxSyncLag message).block = some next ∧ now < next ∧
      ∀ queued ∈ (system.write decode maxSyncLag message).events.pending,
        queued.writtenAt = some next := by
  obtain ⟨⟨_, empty⟩, _, dated⟩ := sequenced
  obtain ⟨info, here, rfl⟩ := Option.map_eq_some_iff.mp found
  obtain ⟨next, there⟩ := Option.isSome_iff_exists.mp dated
  refine ⟨next.number, ?_, advancing info here next there, fun queued member => ?_⟩
  · rw [PricingSystem.block, market_write, there]
    rfl
  · unfold PricingSystem.write at member
    cases sent : system.market.broadcast decode message with
    | none => simp [sent, empty] at member
    | some event =>
      simp only [sent, Option.elim_some] at member
      rcases Receiver.mem_pending_send member with earlier | rfl
      · simp [empty] at earlier
      · simp [PricingSystem.block, there]

/-- A write to a newer block leaves earlier blocks processed. -/
theorem Processed.write (processed : system.Processed block) :
    (system.write decode maxSyncLag message).Processed block := by
  obtain ⟨now, found, reached⟩ := processed.reached
  obtain ⟨next, there, newer, queues⟩ := advance_write sequenced advancing found
  refine ⟨⟨next, there, by omega⟩, fun writtenAt member => ?_⟩
  rcases mem_append.mp member with queued | round
  · obtain ⟨entry, pending, rfl⟩ := mem_map.mp queued
    exact ⟨next, queues entry pending, by omega⟩
  · rw [phase_write] at round
    exact processed.later writtenAt (mem_append_right _ round)

private theorem ReadsAhead.write (ahead : system.ReadsAhead) :
    (system.write decode maxSyncLag message).ReadsAhead := by
  intro block output about computed
  obtain ⟨⟨now, found, reached⟩, -⟩ := ahead block output about (phase_write message ▸ computed)
  obtain ⟨next, there, newer, queues⟩ := advance_write sequenced advancing found
  exact ⟨⟨next, there, by omega⟩, fun queued member => ⟨next, queues queued member, by omega⟩⟩

end Write

/-- A round that has computed did so before the step, or computes in it. -/
theorem computed_of_step {action : PricingAction P}
    {output : ComputationOutput (Map SpotPriceKey Rate)}
    (computed : (system.step decode maxSyncLag spotPrice display action).phase =
      .computed block output about) :
    system.phase = .computed block output about ∨
      ∃ changed, action = .compute ∧ system.phase = .started changed block about ∧
        output = computeSpotPrices spotPrice display system.market.data system.stored changed := by
  unfold PricingSystem.step at computed
  split at computed
  · exact .inl (by rwa [phase_write] at computed)
  · rename_i idle
    exact absurd computed (phase_take idle)
  · rename_i started
    cases computed
    exact .inr ⟨_, rfl, started, rfl⟩
  · cases computed
  · split at computed <;> exact .inl computed
  · exact .inl computed
  · exact .inl computed
  · exact .inl computed

private theorem ReadsAhead.step (ahead : system.ReadsAhead) (keepsUp : system.KeepsUp spotPrice)
    {action : PricingAction P} (sequenced : system.Sequenced decode maxSyncLag action)
    (advancing : system.Advancing decode maxSyncLag action) (display : Address → String) :
    (system.step decode maxSyncLag spotPrice display action).ReadsAhead := by
  intro block output about computed
  obtain same | ⟨changed, rfl, started, -⟩ := computed_of_step computed
  · -- The round was there before, so the step is none of the manager's.
    unfold PricingSystem.step at computed ⊢
    split at computed
    · exact ahead.write sequenced advancing block output about computed
    · rename_i idle
      exact absurd computed (phase_take idle)
    · rename_i started
      cases started.symm.trans same
    · cases computed
    · split <;> exact ahead block output about same
    · exact ahead block output about same
    · exact ahead block output about same
    · exact ahead block output about same
  · obtain ⟨pending, now, _⟩ := keepsUp.started started
    simp only [PricingSystem.step, started]
    exact ⟨⟨block, now, le_rfl⟩, by simp [pending]⟩

/-- A step that neither completes spot prices nor reaches the tracker. -/
structure Quiet (system next : PricingSystem P Rate) : Prop where
  block : next.block = system.block
  unprocessed : next.unprocessed ⊆ system.unprocessed
  tracker : next.tracker = system.tracker
  announced : ∀ block failedItems,
    DerivedDataEvent.computationComplete spotPricesId block failedItems ∈ next.announced →
      .computationComplete spotPricesId block failedItems ∈ system.announced

private theorem Heard.of_quiet (heard : system.Heard) (quiet : system.Quiet next) : next.Heard := by
  refine ⟨fun block failedItems member => ?_, fun ready => ?_⟩
  · have processed := heard.announced block failedItems (quiet.announced block failedItems member)
    exact processed.of_subset quiet.block quiet.unprocessed
  · obtain ⟨block, current, processed⟩ := heard.tracked (quiet.tracker ▸ ready)
    exact ⟨block, quiet.tracker ▸ current, processed.of_subset quiet.block quiet.unprocessed⟩

private theorem quiet_startRound {left : PricingSystem P Rate} (quiet : system.Quiet left)
    (idle : left.phase = .idle) (changed : ChangedComponents)
    (queued : about ⊆ system.unprocessed) : system.Quiet (left.startRound changed about) := by
  unfold startRound
  cases left.block with
  | none => exact quiet
  | some block =>
    have pending : left.events.pending.map QueuedEvent.writtenAt ⊆ system.unprocessed := by
      have kept := quiet.unprocessed
      rwa [PricingSystem.unprocessed, idle, append_nil] at kept
    refine ⟨quiet.block, append_subset.mpr ⟨pending, queued⟩, quiet.tracker, ?_⟩
    intro other failedItems member
    apply quiet.announced
    simpa using member

private theorem quiet_take (idle : system.phase = .idle) : system.Quiet system.take := by
  have waiting : system.unprocessed = system.events.pending.map QueuedEvent.writtenAt := by
    rw [PricingSystem.unprocessed, idle, append_nil]
  have left (events : Receiver QueuedEvent) (fewer : events.pending ⊆ system.events.pending) :
      system.Quiet { system with events := events } := by
    refine ⟨rfl, ?_, rfl, fun _ _ member => member⟩
    rw [waiting, PricingSystem.unprocessed, idle, append_nil]
    exact map_subset _ fewer
  unfold PricingSystem.take
  by_cases lags : system.events.skipped = 0
  · cases pending : system.events.pending with
    | nil =>
      rw [Receiver.recv_of_empty lags pending]
      split <;> exact left _ (List.Subset.refl _)
    | cons queued later =>
      have fewer := left { system.events with pending := later }
        (pending ▸ subset_cons_self queued later)
      rw [Receiver.recv_of_pending lags pending]
      dsimp only
      split
      · exact fewer
      · apply quiet_startRound fewer idle
        simp [waiting, pending]
  · -- After a lag, the round is about what the channel still holds.
    rw [Receiver.recv_of_lag lags]
    dsimp only
    have drained := left { system.events with pending := [], skipped := 0 } (nil_subset _)
    cases coalesceMarketEvents (system.events.pending.map QueuedEvent.event) with
    | none => exact drained
    | some changed =>
      apply quiet_startRound drained idle
      simp [waiting]

/-- A sequenced step to a newer block leaves only processed blocks announced. -/
theorem Heard.step (heard : system.Heard) (ahead : system.ReadsAhead)
    {action : PricingAction P} (sequenced : system.Sequenced decode maxSyncLag action)
    (advancing : system.Advancing decode maxSyncLag action) (display : Address → String) :
    (system.step decode maxSyncLag spotPrice display action).Heard := by
  unfold PricingSystem.step
  split
  · refine ⟨fun block failedItems member => ?_, fun ready => ?_⟩
    · exact (heard.announced block failedItems (by simpa using member)).write sequenced advancing
    · obtain ⟨block, current, processed⟩ := heard.tracked (by simpa using ready)
      exact ⟨block, by simpa using current, processed.write sequenced advancing⟩
  · rename_i idle
    exact heard.of_quiet (quiet_take idle)
  · rename_i started
    apply heard.of_quiet
    refine ⟨rfl, ?_, rfl, fun _ _ member => member⟩
    simp [PricingSystem.unprocessed, started]
  · -- The round's own changes are processed now, and only later blocks are queued.
    rename_i block output about computed
    obtain ⟨reached, queues⟩ := ahead block output about computed
    have fewer : ∀ stored announced, ({ system with
        phase := .idle, stored := stored, announced := announced } :
          PricingSystem P Rate).unprocessed ⊆ system.unprocessed := by
      simp [PricingSystem.unprocessed]
    refine ⟨fun other failedItems member => ?_, fun ready => ?_⟩
    · rcases mem_append.mp member with earlier | told
      · exact (heard.announced other failedItems earlier).of_subset rfl (fewer _ _)
      · obtain ⟨_, rfl, _⟩ := DerivedDataEvent.computationComplete.inj (mem_singleton.mp told)
        refine ⟨reached, fun writtenAt member => ?_⟩
        simp only [PricingSystem.unprocessed, append_nil] at member
        obtain ⟨queued, pending, rfl⟩ := mem_map.mp member
        exact queues queued pending
    · obtain ⟨other, current, processed⟩ := heard.tracked ready
      exact ⟨other, current, processed.of_subset rfl (fewer _ _)⟩
  · split
    · rename_i event _ other
      apply heard.of_quiet
      refine ⟨rfl, List.Subset.refl _, rfl, fun block failedItems member => ?_⟩
      rcases mem_append.mp member with earlier | told
      · exact earlier
      · rw [← mem_singleton.mp told] at other
        simp [isOther] at other
    · exact heard
  · refine ⟨fun block failedItems member => ?_, fun ready => ?_⟩
    · exact { heard.announced block failedItems (mem_of_mem_tail member) with }
    · cases next : system.announced with
      | nil =>
        rw [next] at ready
        obtain ⟨block, current, processed⟩ := heard.tracked ready
        exact ⟨block, current, { processed with }⟩
      | cons event later =>
        rw [next] at ready
        rcases ReadinessTracker.ready_of_handleEvent ready with
          ⟨was, same⟩ | ⟨block, failedItems, told, current⟩
        · obtain ⟨block, current, processed⟩ := heard.tracked was
          exact ⟨block, same.trans current, { processed with }⟩
        · have processed := heard.announced block failedItems (by simp [next, told])
          exact ⟨block, current, { processed with }⟩
  · apply heard.of_quiet
    exact ⟨rfl, List.Subset.refl _, rfl, fun _ _ member => mem_of_mem_tail member⟩
  · exact heard

/-! ## Runs -/

/-- A ready tracker that needs fresh spot prices is at a block with nothing left to process. -/
def AdmitsProcessed (system : PricingSystem P Rate) : Prop :=
  spotPricesId ∈ system.tracker.requirements.requireFresh → system.tracker.isReady = true →
    system.tracker.currentBlock ∉ system.unprocessed

private theorem Heard.admitsProcessed (heard : system.Heard) : system.AdmitsProcessed := by
  intro fresh ready
  simp only [ReadinessTracker.isReady, decide_eq_true_eq] at ready
  obtain ⟨block, current, processed⟩ := heard.tracked (ready.1 fresh)
  intro left
  obtain ⟨next, same, later⟩ := processed.later _ left
  rw [current, Option.some.injEq] at same
  omega

variable (decode maxSyncLag spotPrice) in
/-- Along a run, what is announced as complete is complete. -/
structure ReflectsBlocks (display : Address → String)
    (start : PricingSystem P Rate) (actions : List (PricingAction P)) : Prop where
  /-- Prices that are announced for a block are those of pricing from nothing the market that a
  round read at that block. -/
  exact : ∀ entry ∈ traceFold (step decode maxSyncLag spotPrice display) start actions,
    ∀ block output about, entry.2 = .persist → entry.1.phase = .computed block output about →
      ∃ read ∈ traceFold (step decode maxSyncLag spotPrice display) start actions,
        read.2 = .compute ∧ read.1.block = some block ∧
        ∀ key, ((entry.1.step decode maxSyncLag spotPrice display entry.2).stored.getD ∅).lookup
          key = (priceFromScratch spotPrice display read.1.market.data).data.lookup key
  /-- A tracker admits no solve on prices that lack a change of its block. -/
  fresh : ∀ entry ∈ traceFold (step decode maxSyncLag spotPrice display) start actions,
    (entry.1.step decode maxSyncLag spotPrice display entry.2).AdmitsProcessed

/-- **Completed spot prices are those of their block when writes wait for them.** Every write comes
after the earlier changes were read, names what it changes and moves the market to a newer block. -/
theorem reflectsBlocks_of_sequenced (decode : DirectionsDecoder)
    (maxSyncLag : Duration) (spotPrice : SpotPriceFn P Rate)
    (display : Address → String) (requirements : ComputationRequirements) {capacity : Nat}
    (room : 0 < capacity) (actions : List (PricingAction P))
    (sequenced : ∀ entry ∈ traceFold (step decode maxSyncLag spotPrice display)
      (start requirements capacity) actions, entry.1.Sequenced decode maxSyncLag entry.2)
    (advancing : ∀ entry ∈ traceFold (step decode maxSyncLag spotPrice display)
      (start requirements capacity) actions, entry.1.Advancing decode maxSyncLag entry.2) :
    ReflectsBlocks decode maxSyncLag spotPrice display (start requirements capacity) actions := by
  have trace := Trace.fold (step decode maxSyncLag spotPrice display)
    (start requirements capacity) actions
  let Computed (system : PricingSystem P Rate) : Prop :=
    ∀ block output about, system.phase = .computed block output about →
      ∃ read ∈ traceFold (step decode maxSyncLag spotPrice display) (start requirements capacity)
        actions, read.2 = .compute ∧ read.1.block = some block ∧
          ∀ key, output.data.lookup key = spotPriceOf spotPrice read.1.market.data key
  have initial : (start requirements capacity : PricingSystem P Rate).KeepsUp spotPrice ∧
      (start requirements capacity : PricingSystem P Rate).ReadsAhead ∧
      (start requirements capacity : PricingSystem P Rate).Heard ∧
      Computed (start requirements capacity) :=
    ⟨⟨room, rfl, rfl, fun key => rfl⟩, (fun _ _ _ never => by cases never),
      ⟨by simp [start], by simp [start, ReadinessTracker.new]⟩, fun _ _ _ never => by cases never⟩
  have along := (trace.invariant (fun system => system.KeepsUp spotPrice ∧ system.ReadsAhead ∧
      system.Heard ∧ Computed system) initial fun entry member ⟨keepsUp, ahead, heard, reads⟩ =>
    ⟨keepsUp.step (sequenced entry member) display,
      ahead.step keepsUp (sequenced entry member) (advancing entry member) display,
      heard.step ahead (sequenced entry member) (advancing entry member) display,
      fun block output about computed => by
        obtain same | ⟨changed, computes, started, rfl⟩ := computed_of_step computed
        · exact reads block output about same
        · obtain ⟨_, now, outdated⟩ := keepsUp.started started
          exact ⟨entry, member, computes, now, outdated.lookup_computeSpotPrices⟩⟩).1
  refine ⟨?_, fun entry member => (along entry member).2.2.2.1.admitsProcessed⟩
  rintro ⟨system, action⟩ member block output about rfl computed
  obtain ⟨read, inside, computes, now, exact⟩ :=
    (along _ member).1.2.2.2 block output about computed
  refine ⟨read, inside, computes, now, fun key => ?_⟩
  dsimp only at computed
  simp only [step, computed]
  exact (exact key).trans (lookup_priceFromScratch key).symm

section Samples

def pricedPool (id : ComponentId) : FeedComponent := ⟨id, "uniswap_v2", [⟨0, 18⟩, ⟨1, 18⟩], ∅⟩

def pricedBlock (number : Nat) (newPairs : List FeedComponent) (states : List (String × Nat)) :
    PricingAction Nat :=
  .write (.update .protocol
    { newPairs := newPairs
      removedPairs := []
      states := states
      blockNumber := number
      syncStates := [("uniswap_v2", .ready ⟨number, "", 0⟩)] })

/-- A round of the manager, heard by the worker. -/
def heardRound : List (PricingAction Nat) := [.take, .compute, .persist, .receive, .receive]

def statePrice (state : Nat) (_ _ : Token) : Except String Nat := .ok state

def pricingStart : PricingSystem Nat Nat := start ⟨{spotPricesId}, ∅⟩ 8

/-- The manager keeps up with two blocks, the second of which comes while it stores the prices of
the first. -/
def keptUp : List (PricingAction Nat) :=
  [pricedBlock 1 [pricedPool "x", pricedPool "y"] [("x", 1), ("y", 1)], .take, .compute,
    pricedBlock 2 [] [("y", 2)], .persist, .receive, .receive] ++ heardRound

/-- A pool changes in the second block and another in the third, before the manager takes the event
of the second. -/
def behind : List (PricingAction Nat) :=
  pricedBlock 1 [pricedPool "x", pricedPool "y"] [("x", 1), ("y", 1)] :: heardRound ++
    [pricedBlock 2 [] [("x", 2)], pricedBlock 3 [] [("y", 3)]] ++ heardRound

/-- The manager announces each block with its prices. -/
theorem kept_up_reflects_blocks :
    ReflectsBlocks (fun _ => none) 0 statePrice toString pricingStart keptUp := by
  apply reflectsBlocks_of_sequenced _ _ _ _ _ (by decide)
  · intro entry member
    simp only [keptUp, heardRound, cons_append, nil_append, traceFold, mem_cons,
      not_mem_nil, or_false] at member
    rcases member with rfl | rfl | rfl | rfl | rfl | rfl | rfl | rfl | rfl | rfl | rfl | rfl
    all_goals first
      | exact trivial
      | refine ⟨⟨(fun _ _ _ never => by cases never), rfl⟩, ?_, by decide +kernel⟩
        unfold Tells MarketEvent.Names
        decide +kernel
  · decide +kernel

/-- The third block is announced with a price of the first. -/
theorem announced_without_change :
    ¬ ReflectsBlocks (fun _ => none) 0 statePrice toString pricingStart behind := by
  intro reflects
  obtain ⟨read, inside, -, now, priced⟩ :=
    reflects.exact _ (mem_of_getElem? (i := 10) (by rfl)) 3 _ _ rfl (by rfl)
  have changed : ∀ read ∈ traceFold (step (fun _ => none) 0 statePrice toString) pricingStart
      behind, read.1.block = some 3 → (priceFromScratch statePrice toString
        read.1.market.data).data.lookup ("y", (0, 1)) = some 3 := by decide +kernel
  have price := (priced ("y", (0, 1))).trans (changed read inside now)
  revert price
  decide +kernel

end Samples

end PricingSystem

end Fynd
