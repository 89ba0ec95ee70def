import Fynd.Feed.MarketData

/-!
# The event stream beside the market

Whoever knows the topology of the market before a message and applies the event that is broadcast
knows the swap directions of every component after it. A component whose state alone was written is
named as updated, provided that a book update lists the components of the market as updated.
-/

namespace Fynd

open Foundation List

variable {P : Type}

/-- Applies an event to a topology: what it adds, then what it removes. -/
def applyEvent (topology : MarketTopology) (event : MarketEvent) : MarketTopology :=
  event.removedComponents.foldl (fun known id => known.erase id) (event.addedComponents ∪ topology)

namespace MarketData

section Events

variable (decode : DirectionsDecoder)

section

variable (market : MarketData P)

/-- The event a message is followed by. -/
def broadcast : FeedMessage P → Option MarketEvent
  | .update _ msg =>
    (Fynd.handleTychoMessage decode { market.data with label := toString msg.blockNumber } msg).2
  | .book update => some (Fynd.handleBookUpdate decode market.data update).2

/-- The components a message stores. -/
def storedBy : FeedMessage P → List ProtocolComponent
  | .update _ msg => msg.newPairs.map marketComponent
  | .book update =>
    let own := dropForeignComponents market.data update
    (own.added ++ own.updated).map marketComponent

/-- The ids a message removes. -/
def removedBy : FeedMessage P → List ComponentId
  | .update _ msg => msg.removedComponents
  | .book update => (dropForeignComponents market.data update).removed

/-- The ids a message writes a state for. -/
def statesWritten : FeedMessage P → List ComponentId
  | .update _ msg => msg.states.map fun state => state.1.toLower
  | .book update => (dropForeignComponents market.data update).states.map Prod.fst

end

end Events

end MarketData

/-! ## What a message announces -/

namespace MarketState

private theorem components_updateSyncStatus (market : MarketState P)
    (syncStates : List (String × SynchronizerState)) (maxSyncLag : Duration) :
    (market.updateSyncStatus syncStates maxSyncLag).components = market.components := by
  unfold updateSyncStatus refreshUnsyncedProtocols
  split
  · rfl
  · dsimp only
    split <;> rfl

/-- Components of one id have the same directions. -/
def Agree (decode : DirectionsDecoder) (components : List ProtocolComponent) : Prop :=
  ∀ component ∈ components, ∀ other ∈ components, other.id = component.id →
    swapDirections decode other = swapDirections decode component

/-- An upsert of components that agree reports only ids that it stores with other directions. -/
theorem stored_of_reported {decode : DirectionsDecoder} {market : MarketState P}
    {components : List ProtocolComponent} (agree : Agree decode components) {id : ComponentId}
    (reported : id ∈ (market.upsertComponents decode components).2.new ∨
      id ∈ (market.upsertComponents decode components).2.reshaped) :
    ∃ component ∈ components, component.id = id ∧
      market.directionsAt id ≠ some (swapDirections decode component) := by
  induction components using List.reverseRecOn with
  | nil => simp [upsertComponents] at reported
  | append_singleton earlier last ih =>
    rw [upsertComponents, foldl_concat, ← upsertComponents, reported_upsertComponent] at reported
    rcases reported with before | ⟨rfl, differs⟩
    · obtain ⟨component, member, found⟩ := ih (fun component member other also =>
        agree component (mem_append_left _ member) other
          (mem_append_left _ also)) before
      exact ⟨component, mem_append_left _ member, found⟩
    · refine ⟨last, by simp, rfl, ?_⟩
      rw [directionsAt, lookup_upsertComponents] at differs
      cases touched : (earlier.filter fun component => component.id = last.id).getLast? with
      | some component =>
        obtain ⟨member, named⟩ := mem_filter.mp (mem_of_mem_getLast? touched)
        rw [touched] at differs
        exact absurd (congrArg some (agree last (by simp) component
          (mem_append_left _ member) (of_decide_eq_true named))) differs
      | none =>
        rw [touched] at differs
        exact differs

end MarketState

variable {decode : DirectionsDecoder} {before after : MarketState P}
  {components : List ProtocolComponent} {removed : List ComponentId} {event : Option MarketEvent}
  {id : ComponentId}

section

variable (announced : Announced decode before after components removed event)
include announced

private theorem Announced.of_components {before' after' : MarketState P}
    (first : before'.components = before.components) (last : after'.components = after.components) :
    Announced decode before' after' components removed event where
  untouched := by simpa only [first, last] using announced.untouched
  stored := by simpa only [last] using announced.stored
  gone := by simpa only [last] using announced.gone
  listed := by simpa only [MarketState.topologyOf, last] using announced.listed
  removals := announced.removals
  silent := by simpa only [MarketState.directionsAt, first, last] using announced.silent

/-- A component that keeps its directions is not reported by an upsert of components that agree. -/
theorem Announced.unreported (prepared : MarketState P)
    (agree : MarketState.Agree decode components) (same : prepared.components = before.components)
    (held : (before.directionsAt id).isSome = true)
    (unchanged : after.directionsAt id = before.directionsAt id) :
    id ∉ (prepared.upsertComponents decode components).2.new ++
      (prepared.upsertComponents decode components).2.reshaped := by
  intro reported
  obtain ⟨component, member, named, differs⟩ :=
    MarketState.stored_of_reported agree (mem_append.mp reported)
  have kept : id ∉ removed := by
    intro gone
    rw [← unchanged, MarketState.directionsAt, announced.gone id gone] at held
    cases held
  obtain ⟨stored, also, alike, here⟩ := announced.stored id kept ⟨component, member, named⟩
  apply differs
  have before' : prepared.directionsAt id = before.directionsAt id := by
    rw [MarketState.directionsAt, MarketState.directionsAt, same]
  rw [before', ← unchanged, MarketState.directionsAt, here, Option.map_some,
    agree component member stored also (alike.trans named.symm)]

/-- Who reads an event knows the directions of the market after it. -/
theorem Announced.applyEvent {topology : MarketTopology}
    (known : (topology.lookup id).map ComponentTopology.swapDirections = before.directionsAt id) :
    ((event.elim topology (applyEvent topology)).lookup id).map ComponentTopology.swapDirections =
      after.directionsAt id := by
  cases sent : event with
  | none =>
    rw [announced.silent id (by simp [sent])]
    exact known
  | some notice =>
    have removals := announced.removals notice sent
    rw [Option.elim_some, Fynd.applyEvent, lookup_foldl_erase, removals]
    split
    · rename_i gone
      rw [MarketState.directionsAt, announced.gone id gone]
      rfl
    · rename_i kept
      cases added : notice.addedComponents.lookup id with
      | some listed =>
        have present : id ∈ notice.addedComponents := AList.lookup_isSome.mp (by simp [added])
        rw [AList.lookup_union_left present, added]
        have found := announced.listed notice sent id listed added
        rw [MarketState.topologyOf] at found
        rw [MarketState.directionsAt, Option.map_some]
        obtain ⟨stored, here, rfl⟩ := Option.map_eq_some_iff.mp found
        rw [here]
        rfl
      | none =>
        have absent : id ∉ notice.addedComponents := AList.lookup_eq_none.mp added
        rw [AList.lookup_union_right absent, known, announced.silent id]
        intro other same
        obtain rfl := Option.some.inj (sent.symm.trans same)
        rintro (listed | gone)
        · simp [added] at listed
        · exact kept (removals ▸ gone)

end

/-- A message names a component that it writes a state for and does not report as updated. -/
theorem updated_handleTychoMessage {market : MarketState P} {msg : Update P}
    (written : id ∈ msg.states.map fun state => state.1.toLower)
    (unreported : id ∉ (market.upsertComponents decode (msg.newPairs.map marketComponent)).2.new ++
      (market.upsertComponents decode (msg.newPairs.map marketComponent)).2.reshaped) :
    ∃ event ∈ (handleTychoMessage decode market msg).2, id ∈ event.updatedComponents := by
  have touched : id ∈ ((msg.states.map fun state => (state.1.toLower, state.2)).map Prod.fst ++
      msg.newPairs.map FeedComponent.id).dedup := by
    rw [mem_dedup, map_map]
    exact mem_append_left _ written
  simp only [handleTychoMessage, MarketState.lookup_topologyOfIds]
  split
  · rename_i nothing
    rw [Bool.and_eq_true, List.isEmpty_iff, filter_eq_nil_iff] at nothing
    have listed := nothing.2 id touched
    rw [if_neg unreported] at listed
    exact absurd rfl listed
  · refine ⟨_, rfl, mem_filter.mpr ⟨touched, ?_⟩⟩
    rw [if_neg unreported]
    rfl

namespace MarketData

variable {decode : DirectionsDecoder} {maxSyncLag : Duration}

/-- Whatever a message changes in the market is announced. -/
theorem handle_announced (decode : DirectionsDecoder)
    (maxSyncLag : Duration) (market : MarketData P) (message : FeedMessage P) :
    Announced decode market.data (market.handle decode maxSyncLag message).data
      (market.storedBy message) (market.removedBy message) (market.broadcast decode message) := by
  cases message with
  | update stream msg =>
    have announced := handleTychoMessage_announced decode
      { market.data with label := toString msg.blockNumber } msg
    exact announced.of_components rfl (MarketState.components_updateSyncStatus _ _ _)
  | book update => exact handleBookUpdate_announced decode market.data update

/-- The components that a message stores under one id have the same directions. A book update names
every component of the market that it writes a state for as updated. -/
def Refreshes (decode : DirectionsDecoder) (market : MarketData P)
    (message : FeedMessage P) : Prop :=
  MarketState.Agree decode (market.storedBy message) ∧
    ∀ update, message = .book update → ∀ id ∈ market.statesWritten message,
      (market.data.directionsAt id).isSome = true →
        id ∈ (dropForeignComponents market.data update).updated.map FeedComponent.id

/-- A component that keeps its directions and whose state is written is named as updated. -/
theorem updated_of_refreshes {market : MarketData P} {message : FeedMessage P}
    (refreshes : Refreshes decode market message) {id : ComponentId}
    (written : id ∈ market.statesWritten message)
    (held : (market.data.directionsAt id).isSome = true)
    (unchanged : (market.handle decode maxSyncLag message).data.directionsAt id =
      market.data.directionsAt id) :
    ∃ event ∈ market.broadcast decode message, id ∈ event.updatedComponents := by
  have announced := market.handle_announced decode maxSyncLag message
  cases message with
  | book update =>
    have unreported := announced.unreported (market.data.upsertTokens
      ((dropForeignComponents market.data update).added.flatMap FeedComponent.tokens))
      refreshes.1 rfl held unchanged
    refine ⟨_, rfl, mem_filter.mpr ⟨refreshes.2 update rfl id written held, ?_⟩⟩
    rw [MarketState.lookup_topologyOfIds]
    exact if_neg unreported ▸ rfl
  | update stream msg =>
    have unreported := announced.unreported
      { market.data with label := toString msg.blockNumber } refreshes.1 rfl held unchanged
    exact updated_handleTychoMessage written unreported

end MarketData

end Fynd
