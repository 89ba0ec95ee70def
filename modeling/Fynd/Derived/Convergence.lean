import Fynd.Derived.Coalescing
import Fynd.Derived.Freshness

/-!
# Spot prices catch up with the market

The feed writes the market and queues one event per write, and the manager takes the events one by
one, however far the market has moved on. A direction is behind until the last event that names its
component is processed. After it, the direction has the price of the market, or a failure.
-/

namespace Fynd

open Foundation List

variable {P Rate : Type}

/-- Where a round stands: its event and block, and then its output. -/
inductive RoundPhase (Rate : Type)
  | idle
  | started (event : MarketEvent) (block : Nat)
  | computed (output : ComputationOutput (Map SpotPriceKey Rate)) (block : Nat)

/-- No round is underway. -/
def RoundPhase.isIdle : RoundPhase Rate → Bool
  | .idle => true
  | .started _ _ | .computed _ _ => false

/-- The market, the events the manager has not taken, and the manager with its store. -/
structure SpotPriceSystem (P Rate : Type) where
  market : MarketData P
  events : List MarketEvent
  phase : RoundPhase Rate
  store : SpotPriceStore Rate

/-- A write of the feed, or a step of the manager. -/
inductive SpotPriceAction (P : Type)
  | write (message : FeedMessage P)
  | take
  | compute
  | persist

/-- A component of the market lists a direction. -/
def MarketState.Lists (market : MarketState P) (key : SpotPriceKey) : Prop :=
  (market.directionsAt key.1).any (key.2 ∈ ·) = true

namespace SpotPriceSystem

/-- An empty market and a manager that has computed nothing. -/
def start : SpotPriceSystem P Rate := ⟨.newShared, [], .idle, .new⟩

/-- Takes the next event. An empty one, and one that comes before the market has a block, starts no
round. -/
def take (system : SpotPriceSystem P Rate) : SpotPriceSystem P Rate :=
  match system.events with
  | [] => system
  | event :: later =>
    if (ChangedComponents.ofEvent event).isEmpty then { system with events := later }
    else
      system.market.data.lastUpdated.elim { system with events := later } fun info =>
        { system with
          events := later
          phase := .started event info.number
          store := system.store.prepare (.ofEvent event) }

section Steps

variable (decode : DirectionsDecoder) (maxSyncLag : Duration)
  (text : AddressText) (spotPrice : SpotPriceFn P Rate)

/-- One step. A step that the manager is not ready for changes nothing. -/
def step (system : SpotPriceSystem P Rate) (action : SpotPriceAction P) : SpotPriceSystem P Rate :=
  match action, system.phase with
  | .write message, _ =>
    { system with
      market := system.market.handle decode maxSyncLag message
      events := system.events ++ (system.market.broadcast decode message).toList }
  | .take, .idle => system.take
  | .compute, .started event block =>
    { system with
      phase := .computed (computeSpotPrices spotPrice text.display system.market.data
        (system.store.prices.map Prod.fst) (.ofEvent event)) block }
  | .persist, .computed output block =>
    { system with phase := .idle, store := system.store.setSpotPrices text output block }
  | _, _ => system

/-- The system after some steps. -/
def run (system : SpotPriceSystem P Rate) (actions : List (SpotPriceAction P)) :
    SpotPriceSystem P Rate :=
  actions.foldl (step decode maxSyncLag text spotPrice) system

end Steps

/-- The last event has been processed. -/
def isProcessed (system : SpotPriceSystem P Rate) : Bool :=
  system.phase.isIdle && system.events.isEmpty

/-- A write names what it changes, and an event that changes something is taken only when the market
has a block. -/
def Covered (decode : DirectionsDecoder) (maxSyncLag : Duration)
    (system : SpotPriceSystem P Rate) : SpotPriceAction P → Prop
  | .write message => PricingSystem.Tells decode maxSyncLag system.market message
  | .take => ∀ event ∈ system.events.head?, (ChangedComponents.ofEvent event).isEmpty = false →
      system.market.data.lastUpdated.isSome = true
  | .compute | .persist => True

end SpotPriceSystem

/-- The store has the prices of the market from scratch, and as failures exactly the listed
directions without a price. -/
structure Converged (text : AddressText) (spotPrice : SpotPriceFn P Rate)
    (market : MarketState P) (store : SpotPriceStore Rate) : Prop where
  prices : ∀ key, store.price key =
    (priceFromScratch spotPrice text.display market).data.lookup key
  disjoint : ∀ key, store.price key = none ∨ store.failed.lookup key = none
  failures : ∀ key, (store.failed.lookup key).isSome = true ↔
    market.Lists key ∧ store.price key = none

/-! ## How far the store is behind -/

section Behind

variable {decode : DirectionsDecoder} {maxSyncLag : Duration} {text : AddressText}
  {spotPrice : SpotPriceFn P Rate} {market : MarketState P} {store : SpotPriceStore Rate}
  {events : List MarketEvent} {event : MarketEvent} {key : SpotPriceKey}

variable {entry : Option Rate × Option (Nat × FailedItemError)} {id : ComponentId}

variable (entry) in
variable (spotPrice market key) in
/-- A direction has what the market gives it. -/
def ExactEntry : Prop :=
  entry.1 = spotPriceOf spotPrice market key ∧
    (entry.2.isSome = true ↔ market.Lists key ∧ entry.1 = none)

/-- An event leaves the directions of a component alone. -/
def KeepsShape (event : MarketEvent) (id : ComponentId) : Prop :=
  (ChangedComponents.ofEvent event).word id = .unnamed ∨
    (ChangedComponents.ofEvent event).word id = .updated

variable (spotPrice market store events) in
/-- The store lacks only what the events to come say: a direction that none of them names is exact,
one whose component they do not reshape is listed if anything is stored of it, and the market
stands after them. -/
structure Behind : Prop where
  keyed : KeyedTokens market.tokens
  apart : store.Apart
  stands : StandsAfter market events
  exact : ∀ key, (∀ event ∈ events, (ChangedComponents.ofEvent event).word key.1 = .unnamed) →
    ExactEntry spotPrice market key (store.entry key)
  listed : ∀ key, (∀ event ∈ events, KeepsShape event key.1) →
    store.entry key ≠ (none, none) → market.Lists key

private theorem lists_iff : market.Lists key ↔
    ∃ directions, market.directionsAt key.1 = some directions ∧ key.2 ∈ directions := by
  rw [MarketState.Lists, Option.any_eq_true]
  simp

private theorem ExactEntry.lists {entry : Option Rate × Option (Nat × FailedItemError)}
    (exact : ExactEntry spotPrice market key entry) (held : entry ≠ (none, none)) :
    market.Lists key := by
  by_contra unlisted
  have price : entry.1 = none := exact.1.trans (if_neg unlisted)
  have failure : entry.2 = none := by
    by_contra some
    exact unlisted (exact.2.mp (Option.isSome_iff_ne_none.mpr some)).1
  exact held (Prod.ext price failure)

private theorem exactEntry_settled (listed : market.Lists key) (block : Nat) :
    ExactEntry spotPrice market key (settledEntry spotPrice market block key) := by
  refine ⟨(if_pos listed).symm, ?_⟩
  have priced := @directionError_eq_none_iff _ _ spotPrice market key
  unfold settledEntry
  cases error : directionError spotPrice market key with
  | none =>
    have some := Option.isSome_iff_ne_none.mp (priced.mp error)
    simp [some]
  | some reason =>
    have none : quotedPrice spotPrice market key = none := by
      by_contra some
      rw [priced.mpr (Option.isSome_iff_ne_none.mpr some)] at error
      cases error
    simp [none, listed]

private theorem exactEntry_unlisted (unlisted : ¬market.Lists key) :
    ExactEntry spotPrice market key (none, none) := by
  refine ⟨(if_neg unlisted).symm, ?_⟩
  simp [unlisted]

/-- A word that names a component and fits the market makes its directions exact. Before an update,
only listed directions may be stored. -/
theorem exactEntry_effect {word : Word} (fits : word.Fits market key.1) (named : word ≠ .unnamed)
    (listed : word = .updated → entry ≠ (none, none) → market.Lists key) (block : Nat) :
    ExactEntry spotPrice market key (word.effect spotPrice market block key entry) := by
  cases word with
  | unnamed => exact absurd rfl named
  | removed =>
    have gone : market.directionsAt key.1 = none := fits
    apply exactEntry_unlisted
    rw [lists_iff]
    rintro ⟨directions, held, _⟩
    rw [gone] at held
    cases held
  | added topology =>
    have held : market.directionsAt key.1 = some topology.swapDirections := fits
    have lists : market.Lists key ↔ key.2 ∈ topology.swapDirections := by simp [lists_iff, held]
    rw [Word.effect]
    split
    · rename_i member
      exact exactEntry_settled (lists.mpr member) block
    · rename_i absent
      exact exactEntry_unlisted (mt lists.mp absent)
  | updated =>
    have empty (unlisted : ¬market.Lists key) : entry = (none, none) := by
      by_contra held
      exact unlisted (listed rfl held)
    rw [Word.effect]
    cases held : market.directionsAt key.1 with
    | none =>
      have unlisted : ¬market.Lists key := by simp [lists_iff, held]
      rw [Option.elim_none, empty unlisted]
      exact exactEntry_unlisted unlisted
    | some directions =>
      have lists : market.Lists key ↔ key.2 ∈ directions := by simp [lists_iff, held]
      rw [Option.elim_some]
      split
      · rename_i member
        exact exactEntry_settled (lists.mpr member) block
      · rename_i absent
        rw [empty (mt lists.mp absent), ite_self]
        exact exactEntry_unlisted (mt lists.mp absent)

private theorem StandsAfter.of_cons (stands : StandsAfter market (event :: events)) :
    StandsAfter market events :=
  fun front other back split => stands (event :: front) other back (by rw [split, cons_append])

private theorem keepsShape_iff : KeepsShape event id ↔ ¬event.Names id := by
  refine ⟨fun keeps names => ?_, word_unnamed_or_updated⟩
  unfold MarketEvent.Names at names
  cases found : event.addedComponents.lookup id with
  | some topology => simp [KeepsShape, word_ofEvent, found] at keeps
  | none =>
    have gone := names.resolve_left (by simp [found])
    simp [KeepsShape, word_ofEvent, found, gone] at keeps

private theorem not_updated_of_unnamed
    (unnamed : (ChangedComponents.ofEvent event).word id = .unnamed) :
    id ∉ event.updatedComponents := by
  intro named
  obtain ⟨absent, kept⟩ := not_or.mp (keepsShape_iff.mp (.inl unnamed))
  have absent : event.addedComponents.lookup id = none := by simpa using absent
  simp [word_ofEvent, absent, kept, named] at unnamed

private theorem StandsAfter.head_fits (stands : StandsAfter market (event :: events))
    (quiet : ∀ later ∈ events, KeepsShape later id) :
    ((ChangedComponents.ofEvent event).word id).Fits market id :=
  stands [] event events rfl id fun later member => keepsShape_iff.mp (quiet later member)

/-- **A round brings the store up to its event.** -/
theorem Behind.round (behind : Behind spotPrice market store (event :: events)) (text : AddressText)
    (block : Nat) :
    let next := spotPriceRoundAt text spotPrice market block store (.ofEvent event)
    Behind spotPrice market next events := by
  intro next
  have settled (key : SpotPriceKey) (quiet : ∀ later ∈ events, KeepsShape later key.1)
      (named : (ChangedComponents.ofEvent event).word key.1 ≠ .unnamed) :
      ExactEntry spotPrice market key (next.entry key) := by
    have fits := behind.stands.head_fits quiet
    rw [entry_eq_effect behind.keyed behind.apart fits]
    apply exactEntry_effect fits named
    intro updated held
    exact behind.listed key (forall_mem_cons.mpr ⟨.inr updated, quiet⟩) held
  have same (key : SpotPriceKey)
      (unnamed : (ChangedComponents.ofEvent event).word key.1 = .unnamed) :
      next.entry key = store.entry key := by
    rw [entry_eq_effect behind.keyed behind.apart (by rw [unnamed]; trivial), unnamed]
    rfl
  refine ⟨behind.keyed, behind.apart.round behind.keyed block _, behind.stands.of_cons,
    fun key unnamed => ?_, fun key quiet held => ?_⟩
  · by_cases named : (ChangedComponents.ofEvent event).word key.1 = .unnamed
    · rw [same key named]
      exact behind.exact key (forall_mem_cons.mpr ⟨named, unnamed⟩)
    · exact settled key (fun later member => .inl (unnamed later member)) named
  · by_cases named : (ChangedComponents.ofEvent event).word key.1 = .unnamed
    · rw [same key named] at held
      exact behind.listed key (forall_mem_cons.mpr ⟨.inl named, quiet⟩) held
    · exact (settled key quiet named).lists held

/-- An empty event needs no round. -/
theorem Behind.skip (behind : Behind spotPrice market store (event :: events))
    (empty : (ChangedComponents.ofEvent event).isEmpty = true) :
    Behind spotPrice market store events := by
  have unnamed := isEmpty_iff_unnamed.mp empty
  refine ⟨behind.keyed, behind.apart, behind.stands.of_cons, fun key quiet => ?_,
    fun key quiet held => ?_⟩
  · exact behind.exact key (forall_mem_cons.mpr ⟨unnamed key.1, quiet⟩)
  · exact behind.listed key (forall_mem_cons.mpr ⟨.inl (unnamed key.1), quiet⟩) held

/-- A write that names what it changes leaves the store behind by its event. -/
theorem Behind.write {market : MarketData P} (behind : Behind spotPrice market.data store events)
    {message : FeedMessage P} (tells : PricingSystem.Tells decode maxSyncLag market message) :
    Behind spotPrice (market.handle decode maxSyncLag message).data store
      (events ++ (market.broadcast decode message).toList) := by
  have announced := market.handle_announced decode maxSyncLag message
  refine ⟨MarketData.keyedTokens_handle behind.keyed message, behind.apart,
    behind.stands.handle message, fun key unnamed => ?_, fun key quiet held => ?_⟩
  · have silent : ∀ sent ∈ market.broadcast decode message,
        (ChangedComponents.ofEvent sent).word key.1 = .unnamed := fun sent known =>
      unnamed sent (mem_append_right _ (by simpa using known))
    have price : spotPriceOf spotPrice (market.handle decode maxSyncLag message).data key =
        spotPriceOf spotPrice market.data key :=
      PricingSystem.spotPriceOf_of_unnamed tells fun sent known =>
        ⟨keepsShape_iff.mp (.inl (silent sent known)), not_updated_of_unnamed (silent sent known)⟩
    have before := behind.exact key fun event member =>
      unnamed event (mem_append_left _ member)
    refine ⟨before.1.trans price.symm, ?_⟩
    rw [MarketState.Lists, announced.silent key.1 fun sent known =>
      keepsShape_iff.mp (.inl (silent sent known))]
    exact before.2
  · have before := behind.listed key (fun event member =>
      quiet event (mem_append_left _ member)) held
    rwa [MarketState.Lists, announced.silent key.1 fun sent known =>
      keepsShape_iff.mp (quiet sent (mem_append_right _ (by simpa using known)))]

end Behind

/-! ## Runs -/

namespace SpotPriceSystem

variable {decode : DirectionsDecoder} {maxSyncLag : Duration} {text : AddressText}
  {spotPrice : SpotPriceFn P Rate} {system : SpotPriceSystem P Rate}

variable (text spotPrice system) in
/-- How far the store is behind, phase by phase. A round that has started has dropped failures; one
that has computed is counted as stored. -/
def Tracks : Prop :=
  match system.phase with
  | .idle => Behind spotPrice system.market.data system.store system.events
  | .started event _ => ∃ before, system.store = before.prepare (.ofEvent event) ∧
      Behind spotPrice system.market.data before (event :: system.events)
  | .computed output block =>
    Behind spotPrice system.market.data (system.store.setSpotPrices text output block)
      system.events

private theorem tracks_start : (start : SpotPriceSystem P Rate).Tracks text spotPrice := by
  refine ⟨?_, SpotPriceStore.apart_new, ?_, fun key _ => ?_, fun key _ held => ?_⟩
  · exact keyedTokens_empty
  · intro front event back split
    simp [start] at split
  · apply exactEntry_unlisted
    simp [start, lists_iff, MarketState.directionsAt, MarketData.newShared, MarketState.new]
  · exact absurd rfl held

section

variable (tracks : system.Tracks text spotPrice)
include tracks

private theorem Tracks.write {message : FeedMessage P}
    (tells : PricingSystem.Tells decode maxSyncLag system.market message) :
    ({ system with
        market := system.market.handle decode maxSyncLag message
        events := system.events ++ (system.market.broadcast decode message).toList } :
      SpotPriceSystem P Rate).Tracks text spotPrice := by
  unfold Tracks at tracks ⊢
  cases phase : system.phase with
  | idle =>
    rw [phase] at tracks
    exact tracks.write tells
  | started event block =>
    rw [phase] at tracks
    obtain ⟨before, prepared, behind⟩ := tracks
    exact ⟨before, prepared, behind.write tells⟩
  | computed output block =>
    rw [phase] at tracks
    exact Behind.write tracks tells

private theorem Tracks.take (idle : system.phase = .idle)
    (covered : system.Covered decode maxSyncLag .take) : system.take.Tracks text spotPrice := by
  unfold SpotPriceSystem.take
  cases waiting : system.events with
  | nil => exact tracks
  | cons event later =>
    have behind : Behind spotPrice system.market.data system.store (event :: later) := by
      have known := tracks
      rwa [Tracks, idle, waiting] at known
    dsimp only
    split
    · rename_i empty
      rw [Tracks, idle]
      exact behind.skip empty
    · rename_i full
      have dated := covered event (by simp [waiting]) (by simpa using full)
      obtain ⟨info, found⟩ := Option.isSome_iff_exists.mp dated
      rw [found]
      exact ⟨system.store, rfl, behind⟩

private theorem Tracks.step {action : SpotPriceAction P}
    (covered : system.Covered decode maxSyncLag action) :
    (system.step decode maxSyncLag text spotPrice action).Tracks text spotPrice := by
  unfold SpotPriceSystem.step
  split
  · exact tracks.write covered
  · rename_i idle
    exact tracks.take idle covered
  · rename_i event block started
    rw [Tracks, started] at tracks
    obtain ⟨before, prepared, behind⟩ := tracks
    have done := behind.round text block
    rw [spotPriceRoundAt, ← prepared] at done
    exact done
  · rename_i output block computed
    rw [Tracks, computed] at tracks
    exact tracks
  · exact tracks

end

private theorem eq_idle_of_isIdle {phase : RoundPhase Rate} (idle : phase.isIdle = true) :
    phase = .idle := by
  cases phase with
  | idle => rfl
  | started | computed => cases idle

/-- **Spot prices converge to a full recomputation.** Where every write names what it changes and
events are taken only once the market has a block, the store is that of a computation from scratch
whenever the last event has been processed. -/
theorem converged_of_covered (decode : DirectionsDecoder) (maxSyncLag : Duration)
    (text : AddressText) (spotPrice : SpotPriceFn P Rate) (actions : List (SpotPriceAction P))
    (covered : ∀ entry ∈ traceFold (step decode maxSyncLag text spotPrice) start actions,
      entry.1.Covered decode maxSyncLag entry.2)
    (processed : (start.run decode maxSyncLag text spotPrice actions).isProcessed = true) :
    Converged text spotPrice (start.run decode maxSyncLag text spotPrice actions).market.data
      (start.run decode maxSyncLag text spotPrice actions).store := by
  have trace := Trace.fold (step decode maxSyncLag text spotPrice) start actions
  have tracks := (trace.invariant (fun system => system.Tracks text spotPrice) tracks_start
    fun entry member holds => holds.step (covered entry member)).2
  change (start.run decode maxSyncLag text spotPrice actions).Tracks text spotPrice at tracks
  obtain ⟨idle, nothing⟩ := Bool.and_eq_true_iff.mp processed
  rw [Tracks, eq_idle_of_isIdle idle, List.isEmpty_iff.mp nothing] at tracks
  refine ⟨fun key => ?_, tracks.apart, fun key => ?_⟩
  · rw [lookup_priceFromScratch]
    exact (tracks.exact key (by simp)).1
  · exact (tracks.exact key (by simp)).2

section Samples

def managerRound : List (SpotPriceAction Nat) := [.take, .compute, .persist]

/-- The system after some steps, with pools whose state is their price. -/
def runOfPools (actions : List (SpotPriceAction Nat)) : SpotPriceSystem Nat Nat :=
  start.run (fun _ => none) 0 tallyText positivePrice actions

/-- Two blocks are written before the manager takes the event of the first. -/
def laggingRun : List (SpotPriceAction Nat) :=
  .write firstLagMessage :: .write secondLagMessage :: (managerRound ++ managerRound)

/-- A manager two blocks behind catches up. -/
theorem lagging_run_converges :
    Converged tallyText positivePrice (runOfPools laggingRun).market.data
      (runOfPools laggingRun).store := by
  apply converged_of_covered _ _ _ _ _ _ (by decide +kernel)
  intro entry member
  simp only [laggingRun, managerRound, cons_append, nil_append, traceFold,
    mem_cons, not_mem_nil, or_false] at member
  rcases member with rfl | rfl | rfl | rfl | rfl | rfl | rfl | rfl
  · unfold Covered PricingSystem.Tells MarketEvent.Names
    decide +kernel
  · unfold Covered PricingSystem.Tells MarketEvent.Names
    decide +kernel
  · intro event known full
    decide +kernel
  · trivial
  · trivial
  · intro event known full
    decide +kernel
  · trivial
  · trivial

def venuePool : FeedComponent := ⟨"x", "rfq:venue", [⟨0, 18⟩, ⟨1, 18⟩], ∅⟩

/-- The venue's book, which lists the pool as added. -/
def venueBook (state : Nat) : FeedMessage Nat :=
  .book ⟨"rfq:venue", [venuePool], [], [], [("x", state)]⟩

/-- The protocol stream serves the pool with a price of 1, and then the venue with a price of 2. -/
def rebookedRun : List (SpotPriceAction Nat) :=
  .write (.update .protocol
    { newPairs := [venuePool]
      removedPairs := []
      states := [("x", 1)]
      blockNumber := 1
      syncStates := [("rfq:venue", .ready ⟨1, "", 0⟩)] }) ::
    (managerRound ++ .write (venueBook 2) :: managerRound)

/-- The venue's book comes before the first block. -/
def earlyBookRun : List (SpotPriceAction Nat) := .write (venueBook 1) :: managerRound

/-- After the last event is processed the pool has the price it had before, and in the other run no
price and no failure. -/
theorem rebooked_and_early_pools_not_converged :
    ((runOfPools rebookedRun).isProcessed = true ∧
      ((runOfPools rebookedRun).store.price ("x", (0, 1)) = some 1 ∧
        quotedPrice positivePrice (runOfPools rebookedRun).market.data ("x", (0, 1)) = some 2) ∧
      ¬Converged tallyText positivePrice (runOfPools rebookedRun).market.data
        (runOfPools rebookedRun).store) ∧
    ((runOfPools earlyBookRun).isProcessed = true ∧
      ((runOfPools earlyBookRun).store.price ("x", (0, 1)) = none ∧
        quotedPrice positivePrice (runOfPools earlyBookRun).market.data ("x", (0, 1)) = some 1) ∧
      ¬Converged tallyText positivePrice (runOfPools earlyBookRun).market.data
        (runOfPools earlyBookRun).store) := by
  refine ⟨⟨by decide +kernel, by decide +kernel, fun converged => ?_⟩,
    ⟨by decide +kernel, by decide +kernel, fun converged => ?_⟩⟩
  · have prices := converged.prices ("x", (0, 1))
    revert prices
    decide +kernel
  · have prices := converged.prices ("x", (0, 1))
    revert prices
    decide +kernel

end Samples

end SpotPriceSystem

end Fynd
