import Fynd.Derived.SpotPrice
import Fynd.Feed.EventStream
import Fynd.Foundation.Broadcast

/-!
# The computation manager between the feed and the workers

The feed writes the market and queues one event per write. The manager takes an event, reads
the block off the market, prices what the event names and announces the block as complete. A
worker's tracker hears of it later. The computations other than spot prices only add
announcements of their own.
-/

namespace Fynd

open Foundation

variable {P Rate : Type}

/-- The components an event changes. -/
def ChangedComponents.ofEvent (event : MarketEvent) : ChangedComponents :=
  ⟨event.addedComponents, event.removedComponents, event.updatedComponents⟩

def ChangedComponents.isEmpty (changed : ChangedComponents) : Bool :=
  changed.added.entries.isEmpty && changed.removed.isEmpty && changed.updated.isEmpty

/-- Adds an event to the changes gathered so far. The last word on a component counts. -/
def ChangedComponents.absorb (changed : ChangedComponents) (event : MarketEvent) :
    ChangedComponents :=
  let added := event.addedComponents.entries.foldl
    (fun known entry => (⟨known.added.insert entry.1 entry.2, known.removed.erase entry.1,
      known.updated.erase entry.1⟩ : ChangedComponents)) changed
  let removed := event.removedComponents.foldl
    (fun known id => (⟨known.added.erase id, known.removed.insert id, known.updated.erase id⟩ :
      ChangedComponents)) added
  event.updatedComponents.foldl
    (fun known id =>
      if (known.added.lookup id).isNone && id ∉ known.removed then
        { known with updated := known.updated.insert id }
      else known) removed

/-- The net changes of several events. -/
def coalesceMarketEvents (events : List MarketEvent) : Option ChangedComponents :=
  let changed := events.foldl ChangedComponents.absorb ⟨∅, [], []⟩
  if changed.isEmpty then none else some changed

/-- An event in the manager's queue, with the block the market was at when it was written. -/
structure QueuedEvent where
  event : MarketEvent
  writtenAt : Option Nat

/-- Where a round stands, with the blocks of the changes it is about. -/
inductive ManagerPhase (Rate : Type)
  | idle
  | started (changed : ChangedComponents) (block : Nat) (about : List (Option Nat))
  | computed (block : Nat) (output : ComputationOutput (Map SpotPriceKey Rate))
      (about : List (Option Nat))

/-- The feed's market, the manager and its store, and a worker's tracker. -/
structure PricingSystem (P Rate : Type) where
  market : MarketData P
  events : Receiver QueuedEvent
  phase : ManagerPhase Rate
  stored : Option (Map SpotPriceKey Rate)
  /-- What the manager announced and the worker has not received. -/
  announced : List DerivedDataEvent
  tracker : ReadinessTracker

/-- A step of the feed, of the manager or of the worker. -/
inductive PricingAction (P : Type)
  | write (message : FeedMessage P)
  | take
  | compute
  | persist
  | announceOther (event : DerivedDataEvent)
  | receive
  | lose

/-- The computation of spot prices. -/
def spotPricesId : ComputationId := "spot_prices"

/-- An event of another computation than that of spot prices. -/
def isOther : DerivedDataEvent → Bool
  | .newBlock _ => false
  | .computationComplete id _ _ | .computationFailed id _ => id ≠ spotPricesId

namespace PricingSystem

section Steps

variable (decode : DirectionsDecoder) (maxSyncLag : Duration)
  (spotPrice : SpotPriceFn P Rate) (display : Address → String)

/-- An empty market, a manager that has computed nothing and a worker that has heard nothing. -/
def start (requirements : ComputationRequirements) (capacity : Nat) : PricingSystem P Rate where
  market := .newShared
  events := .subscribe capacity
  phase := .idle
  stored := none
  announced := []
  tracker := .new requirements

section

variable (system : PricingSystem P Rate)

/-- The block of the last update. -/
def block : Option Nat :=
  system.market.data.lastUpdated.map BlockInfo.number

/-- The feed handles a message and queues its event. -/
def write (message : FeedMessage P) : PricingSystem P Rate :=
  let written := { system with market := system.market.handle decode maxSyncLag message }
  (system.market.broadcast decode message).elim written fun event =>
    { written with events := written.events.send ⟨event, written.block⟩ }

/-- Starts a round at the block the market is at now. -/
def startRound (changed : ChangedComponents) (about : List (Option Nat)) : PricingSystem P Rate :=
  system.block.elim system fun block =>
    { system with
      phase := .started changed block about
      announced := system.announced ++ [.newBlock block] }

/-- Takes the next event, or what is left of the queue after a lag. -/
def take : PricingSystem P Rate :=
  let left := { system with events := system.events.recv.2 }
  match system.events.recv.1 with
  | .value queued =>
    let changed := ChangedComponents.ofEvent queued.event
    if changed.isEmpty then left else left.startRound changed [queued.writtenAt]
  | .lagged _ =>
    let drained := { left with events := { left.events with pending := [] } }
    (coalesceMarketEvents (left.events.pending.map QueuedEvent.event)).elim drained fun changed =>
      drained.startRound changed (left.events.pending.map QueuedEvent.writtenAt)
  | .closed | .nothing => left

/-- One step. A step that the manager is not ready for changes nothing. -/
def step (action : PricingAction P) : PricingSystem P Rate :=
  match action, system.phase with
  | .write message, _ => system.write decode maxSyncLag message
  | .take, .idle => system.take
  | .compute, .started changed block about =>
    { system with
      phase := .computed block
        (computeSpotPrices spotPrice display system.market.data system.stored changed) about }
  | .persist, .computed block output _ =>
    { system with
      phase := .idle
      stored := some output.data
      announced := system.announced ++
        [.computationComplete spotPricesId block output.failedItems] }
  | .announceOther event, _ =>
    if isOther event then { system with announced := system.announced ++ [event] } else system
  | .receive, _ =>
    { system with
      announced := system.announced.tail
      tracker := system.announced.head?.elim system.tracker system.tracker.handleEvent }
  | .lose, _ => { system with announced := system.announced.tail }
  | _, _ => system

end

end Steps

/-- The blocks of the changes that the stored prices do not have yet. -/
def unprocessed (system : PricingSystem P Rate) : List (Option Nat) :=
  system.events.pending.map QueuedEvent.writtenAt ++
    match system.phase with
    | .idle => []
    | .started _ _ about | .computed _ _ about => about

variable {decode : DirectionsDecoder} {maxSyncLag : Duration} {system : PricingSystem P Rate}

variable (message : FeedMessage P)

@[simp] theorem market_write : (system.write decode maxSyncLag message).market =
      system.market.handle decode maxSyncLag message := by
  unfold write
  cases system.market.broadcast decode message <;> rfl

@[simp] theorem phase_write : (system.write decode maxSyncLag message).phase = system.phase := by
  unfold write
  cases system.market.broadcast decode message <;> rfl

@[simp] theorem stored_write : (system.write decode maxSyncLag message).stored = system.stored := by
  unfold write
  cases system.market.broadcast decode message <;> rfl

@[simp] theorem announced_write :
    (system.write decode maxSyncLag message).announced = system.announced := by
  unfold write
  cases system.market.broadcast decode message <;> rfl

@[simp] theorem tracker_write :
    (system.write decode maxSyncLag message).tracker = system.tracker := by
  unfold write
  cases system.market.broadcast decode message <;> rfl

/-- Taking an event computes nothing. -/
theorem phase_take (idle : system.phase = .idle) {block : Nat}
    {output : ComputationOutput (Map SpotPriceKey Rate)} {about : List (Option Nat)} :
    system.take.phase ≠ .computed block output about := by
  have started (left : PricingSystem P Rate) (same : left.phase = .idle)
      (changed : ChangedComponents) (queued : List (Option Nat)) :
      (left.startRound changed queued).phase ≠ .computed block output about := by
    unfold startRound
    cases left.block <;> simp [same]
  unfold take
  cases system.events.recv.1 with
  | value queued =>
    dsimp only
    split
    · simp [idle]
    · apply started
      exact idle
  | lagged count =>
    dsimp only
    cases coalesceMarketEvents (system.events.recv.2.pending.map QueuedEvent.event) with
    | none => simp [idle]
    | some changed =>
      apply started
      exact idle
  | closed => simp [idle]
  | nothing => simp [idle]

end PricingSystem

end Fynd
