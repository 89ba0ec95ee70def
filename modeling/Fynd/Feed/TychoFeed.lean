import Fynd.Types.Market

/-!
# The feed

A message of a stream stores components in the market, removes others, and is
followed by one event. The event lists the components that are new or have other
swap directions than the market held; a component stored again with the same
directions is only an update.
-/

namespace Fynd

open List

variable {P : Type}

/-- What an upsert found: the ids the market did not hold, and those stored again with other
swap directions. -/
structure UpsertedComponents where
  new : List ComponentId
  reshaped : List ComponentId
  deriving DecidableEq, Repr

namespace MarketState

/-- A market that holds nothing. -/
def new : MarketState P where
  components := ∅
  simulationStates := ∅
  tokens := ∅
  gasPrice := none

/-- The tokens and swap directions of each component. -/
def componentTopology (market : MarketState P) : MarketTopology :=
  mapValues StoredComponent.topology market.components

/-- The tokens and swap directions of one component. -/
def topologyOf (market : MarketState P) (id : ComponentId) : Option ComponentTopology :=
  (market.components.lookup id).map StoredComponent.topology

variable (decode : DirectionsDecoder)

/-- Notes a component that is stored. Only one that is new touches what route constraints are
resolved from besides the index. -/
def noteStored (market : MarketState P) (component : ProtocolComponent) : MarketState P :=
  let indexed := indexComponent market.componentsByProtocol component.protocolSystem component.id
  if (market.components.lookup component.id).isNone then
    { market with
      unsyncedPools := if component.protocolSystem ∈ market.unsyncedProtocols then
        insert component.id market.unsyncedPools else market.unsyncedPools
      componentsByProtocol := indexed
      constraintGeneration := market.constraintGeneration + 1 }
  else { market with componentsByProtocol := indexed }

/-- Stores one component. -/
def upsertComponent (state : MarketState P × UpsertedComponents)
    (component : ProtocolComponent) : MarketState P × UpsertedComponents :=
  let directions := swapDirections decode component
  let found :=
    match state.1.components.lookup component.id with
    | none => { state.2 with new := state.2.new ++ [component.id] }
    | some stored =>
      if stored.swapDirections ≠ directions then
        { state.2 with reshaped := state.2.reshaped ++ [component.id] }
      else state.2
  ({ state.1.noteStored component with
      components := state.1.components.insert component.id ⟨component, directions⟩ },
    found)

section

variable (market : MarketState P)

/-- Stores components one after another. -/
def upsertComponents (components : List ProtocolComponent) : MarketState P × UpsertedComponents :=
  components.foldl (upsertComponent decode) (market, ⟨[], []⟩)

/-- Notes that a stored component is removed. -/
def noteRemoved (id : ComponentId) (stored : StoredComponent) : MarketState P :=
  let index := market.componentsByProtocol
  let system := stored.component.protocolSystem
  { market with
    constraintGeneration := market.constraintGeneration + 1
    unsyncedPools := market.unsyncedPools.erase id
    componentsByProtocol := match index.lookup system with
      | none => index
      | some ids => index.insert system (ids.erase id) }

/-- Removes one component and its state. -/
def removeComponent (id : ComponentId) : MarketState P :=
  let noted := (market.components.lookup id).elim market (market.noteRemoved id)
  { noted with
    components := market.components.erase id
    simulationStates := market.simulationStates.erase id }

/-- Removes components and their states. -/
def removeComponents (ids : List ComponentId) : MarketState P :=
  ids.foldl removeComponent market

def upsertTokens (tokens : List Token) : MarketState P :=
  { market with
    tokens := tokens.foldl (fun map token => map.insert token.address token) market.tokens }

def updateStates (states : List (ComponentId × P)) : MarketState P :=
  { market with
    simulationStates := states.foldl (fun map state => map.insert state.1 state.2)
      market.simulationStates }

/-- The topology of those of the listed ids that the market holds. -/
def topologyOfIds (ids : List ComponentId) : MarketTopology :=
  mapOfList (ids.filterMap fun id => (market.topologyOf id).map fun topology => (id, topology))

end

end MarketState

/-- A component as a stream sends it, with whole tokens. -/
structure FeedComponent where
  id : ComponentId
  protocolSystem : String
  tokens : List Token
  staticAttributes : Map String (List UInt8)

/-- The component as the market stores it. -/
def marketComponent (component : FeedComponent) : ProtocolComponent where
  id := component.id
  protocolSystem := component.protocolSystem
  tokens := component.tokens.map Token.address
  staticAttributes := component.staticAttributes

/-- A message of the protocol stream. Removals and states go by the id as the indexer emitted it,
in any case of letters. -/
structure Update (P : Type) where
  newPairs : List FeedComponent
  removedPairs : List String
  states : List (String × P)
  /-- The block the message is for, or the time it was made. -/
  blockNumber : Nat := 0
  /-- What the protocols report. A message of prices off chain carries none. -/
  syncStates : List (String × SynchronizerState) := []

/-- The ids a message removes, as the market writes them. -/
def Update.removedComponents (msg : Update P) : List ComponentId :=
  (msg.removedPairs.map String.toLower).dedup

/-- One complete set of books published by a venue. -/
structure BookUpdate (P : Type) where
  protocolSystem : String
  added : List FeedComponent
  removed : List ComponentId
  updated : List FeedComponent
  states : List (ComponentId × P)

/-- The protocol system the market holds an id under, if it is another than the given one. -/
def heldElsewhere (market : MarketState P) (protocolSystem : String) (id : ComponentId) :
    Option String :=
  ((market.getComponent id).map ProtocolComponent.protocolSystem).filter (· ≠ protocolSystem)

/-- Takes out of a book update every component the market holds under another protocol system. -/
def dropForeignComponents (market : MarketState P) (update : BookUpdate P) : BookUpdate P :=
  let foreign := fun id => (heldElsewhere market update.protocolSystem id).isSome
  { update with
    added := update.added.filter fun component => !foreign component.id
    updated := update.updated.filter fun component => !foreign component.id
    states := update.states.filter fun state =>
      !((update.added ++ update.updated).any fun component =>
        component.id == state.1 && foreign component.id)
    removed := update.removed.filter fun id => !foreign id }

section Handlers

variable (decode : DirectionsDecoder)

/-- Handles a message of the protocol stream. No event follows a message that changes nothing. -/
def handleTychoMessage (market : MarketState P) (msg : Update P) :
    MarketState P × Option MarketEvent :=
  let states := msg.states.map fun state => (state.1.toLower, state.2)
  let touched := (states.map Prod.fst ++ msg.newPairs.map FeedComponent.id).dedup
  let (upserted, found) := market.upsertComponents decode (msg.newPairs.map marketComponent)
  let stored := ((upserted.removeComponents msg.removedComponents).upsertTokens
    (msg.newPairs.flatMap FeedComponent.tokens)).updateStates states
  let added := stored.topologyOfIds (found.new ++ found.reshaped)
  let updated := touched.filter fun id => (added.lookup id).isNone
  (stored, if added.entries.isEmpty && msg.removedComponents.isEmpty && updated.isEmpty then none
    else some ⟨added, msg.removedComponents, updated⟩)

/-- Handles a book update. Its event lists what is left of the update. -/
def handleBookUpdate (market : MarketState P) (update : BookUpdate P) :
    MarketState P × MarketEvent :=
  let own := dropForeignComponents market update
  let withTokens := market.upsertTokens (own.added.flatMap FeedComponent.tokens)
  let (upserted, found) :=
    withTokens.upsertComponents decode ((own.added ++ own.updated).map marketComponent)
  let stored := (upserted.removeComponents own.removed).updateStates own.states
  let added := stored.topologyOfIds (found.new ++ found.reshaped)
  (stored, ⟨added, own.removed,
    (own.updated.map FeedComponent.id).filter fun id => (added.lookup id).isNone⟩)

end Handlers

/-! ## What a write announces -/

namespace MarketState

variable (decode : DirectionsDecoder)

/-- The swap directions the market holds for an id. -/
def directionsAt (market : MarketState P) (id : ComponentId) : Option (List SwapDirection) :=
  (market.components.lookup id).map StoredComponent.swapDirections

variable (state : MarketState P × UpsertedComponents) (component : ProtocolComponent)
  (market : MarketState P) (components : List ProtocolComponent) (ids : List ComponentId)
  (id : ComponentId)

theorem directionsAt_eq :
    (market.componentTopology.lookup id).map ComponentTopology.swapDirections =
      market.directionsAt id := by
  rw [componentTopology, lookup_mapValues, Option.map_map]
  rfl

private theorem components_removeComponents : (market.removeComponents ids).components =
      ids.foldl (fun map id => map.erase id) market.components := by
  induction ids generalizing market with
  | nil => rfl
  | cons id rest ih => exact ih (market.removeComponent id)

theorem lookup_removeComponents : (market.removeComponents ids).components.lookup id =
      if id ∈ ids then none else market.components.lookup id := by
  rw [components_removeComponents, lookup_foldl_erase]

/-- A stored component replaces the one under its id. -/
theorem lookup_upsertComponent : (upsertComponent decode state component).1.components.lookup id =
      if id = component.id then some ⟨component, swapDirections decode component⟩
      else state.1.components.lookup id :=
  lookup_insert_ite _ _ _ _

/-- An upsert reports an id exactly if it is the one stored, new or with other directions. -/
theorem reported_upsertComponent : (id ∈ (upsertComponent decode state component).2.new ∨
        id ∈ (upsertComponent decode state component).2.reshaped) ↔
      (id ∈ state.2.new ∨ id ∈ state.2.reshaped) ∨ id = component.id ∧
        state.1.directionsAt id ≠ some (swapDirections decode component) := by
  unfold upsertComponent directionsAt
  by_cases mine : id = component.id
  · subst mine
    cases known : state.1.components.lookup component.id with
    | none => simp
    | some stored =>
      by_cases same : stored.swapDirections = swapDirections decode component <;> simp [same]
  · cases known : state.1.components.lookup component.id with
    | none => simp [mine]
    | some stored =>
      by_cases same : stored.swapDirections = swapDirections decode component <;>
        simp [same, mine]

/-- An id has the last of the components stored under it. -/
theorem lookup_upsertComponents :
    (market.upsertComponents decode components).1.components.lookup id =
      ((components.filter fun component => component.id = id).getLast?.map fun component =>
        ⟨component, swapDirections decode component⟩).or (market.components.lookup id) := by
  unfold upsertComponents
  induction components using List.reverseRecOn with
  | nil => rfl
  | append_singleton earlier component ih =>
    rw [foldl_concat, lookup_upsertComponent, ih, filter_append]
    by_cases mine : id = component.id
    · simp [mine]
    · simp [mine, Ne.symm mine]

/-- An id that storing components does not report keeps its directions. -/
theorem directionsAt_upsertComponents : let result := market.upsertComponents decode components
    ¬(id ∈ result.2.new ∨ id ∈ result.2.reshaped) →
      result.1.directionsAt id = market.directionsAt id := by
  unfold upsertComponents
  induction components using List.reverseRecOn with
  | nil => exact fun _ => rfl
  | append_singleton earlier component ih =>
    rw [foldl_concat]
    intro result unreported
    obtain ⟨before, unchanged⟩ :=
      not_or.mp (mt (reported_upsertComponent decode _ component id).mpr unreported)
    rw [← ih before, directionsAt, lookup_upsertComponent]
    split
    · rename_i mine
      exact (not_ne_iff.mp fun differs => unchanged ⟨mine, differs⟩).symm
    · rfl

theorem lookup_topologyOfIds :
    (market.topologyOfIds ids).lookup id = if id ∈ ids then market.topologyOf id else none :=
  lookup_mapOfList_filterMap ids market.topologyOf id

end MarketState

/-- A write that stores components and removes others, and what its event says of it. -/
structure Announced (decode : DirectionsDecoder)
    (before after : MarketState P) (components : List ProtocolComponent)
    (removed : List ComponentId) (event : Option MarketEvent) : Prop where
  /-- An id the write does not touch keeps its component. -/
  untouched : ∀ id, id ∉ removed → (∀ component ∈ components, component.id ≠ id) →
    after.components.lookup id = before.components.lookup id
  /-- An id the write stores and does not remove has one of the components stored. -/
  stored : ∀ id, id ∉ removed → (∃ component ∈ components, component.id = id) →
    ∃ component ∈ components, component.id = id ∧
      after.components.lookup id = some ⟨component, swapDirections decode component⟩
  /-- An id the write removes is gone. -/
  gone : ∀ id ∈ removed, after.components.lookup id = none
  /-- The event lists components as they are stored. -/
  listed : ∀ sent ∈ event, ∀ id topology, sent.addedComponents.lookup id = some topology →
    after.topologyOf id = some topology
  /-- The event lists the removals. -/
  removals : ∀ sent ∈ event, sent.removedComponents = removed
  /-- An id the event does not name keeps its directions. -/
  silent : ∀ id, (∀ sent ∈ event, ¬ sent.Names id) → after.directionsAt id = before.directionsAt id

variable {decode : DirectionsDecoder}

variable {components : List ProtocolComponent} {removed : List ComponentId}
  {event : Option MarketEvent} {id : ComponentId}

/-- Where a component of the market comes from after a write. -/
theorem Announced.origin {before after : MarketState P}
    (announced : Announced decode before after components removed event)
    {stored : StoredComponent} (found : after.components.lookup id = some stored) :
    before.components.lookup id = some stored ∨ stored.component ∈ components ∧
      stored.component.id = id ∧
      stored.swapDirections = swapDirections decode stored.component := by
  by_cases gone : id ∈ removed
  · rw [announced.gone id gone] at found
    cases found
  · by_cases touched : ∃ component ∈ components, component.id = id
    · obtain ⟨component, member, named, here⟩ := announced.stored id gone touched
      obtain rfl := Option.some.inj (here.symm.trans found)
      exact .inr ⟨member, named, rfl⟩
    · refine .inl ((announced.untouched id gone fun component member named => ?_).symm.trans found)
      exact touched ⟨component, member, named⟩

/-- The shared part of both handlers. -/
theorem announced_of_upsert {prepared before after : MarketState P}
    {upserted : MarketState P × UpsertedComponents}
    (upserts : prepared.upsertComponents decode components = upserted)
    (same : prepared.components = before.components)
    (written : after.components = (upserted.1.removeComponents removed).components)
    (sends : ∀ sent ∈ event, sent.addedComponents = after.topologyOfIds
      (upserted.2.new ++ upserted.2.reshaped) ∧ sent.removedComponents = removed)
    (quiet : event = none → (∀ id, (after.topologyOfIds
      (upserted.2.new ++ upserted.2.reshaped)).lookup id = none) ∧ removed = []) :
    Announced decode before after components removed event := by
  have lookup : ∀ id, after.components.lookup id = if id ∈ removed then none else
      upserted.1.components.lookup id := fun id => by
    rw [written, MarketState.lookup_removeComponents]
  have stores : ∀ id, upserted.1.components.lookup id =
      ((components.filter fun component => component.id = id).getLast?.map fun component =>
        ⟨component, swapDirections decode component⟩).or (before.components.lookup id) := by
    intro id
    rw [← upserts, MarketState.lookup_upsertComponents, same]
  refine ⟨fun id kept apart => ?_, fun id kept touched => ?_, fun id member => ?_,
    fun sent member id topology found => ?_, fun sent member => (sends sent member).2,
    fun id unnamed => ?_⟩
  · rw [lookup, if_neg kept, stores,
      filter_eq_nil_iff.mpr fun component member => by simpa using apart component member]
    rfl
  · obtain ⟨touching, member, named⟩ := touched
    have some : (components.filter fun component => component.id = id) ≠ [] :=
      ne_nil_of_mem (mem_filter.mpr ⟨member, decide_eq_true named⟩)
    obtain ⟨stored, named⟩ := mem_filter.mp (getLast_mem some)
    refine ⟨_, stored, of_decide_eq_true named, ?_⟩
    rw [lookup, if_neg kept, stores, getLast?_eq_some_getLast some]
    rfl
  · rw [lookup, if_pos member]
  · rw [(sends sent member).1, MarketState.lookup_topologyOfIds] at found
    split at found
    · exact found
    · cases found
  · have unlisted : (after.topologyOfIds (upserted.2.new ++ upserted.2.reshaped)).lookup id = none ∧
        id ∉ removed := by
      cases sent : event with
      | none =>
        obtain ⟨none, rfl⟩ := quiet sent
        exact ⟨none id, not_mem_nil⟩
      | some notice =>
        obtain ⟨added, gone⟩ := sends notice sent
        obtain ⟨absent, kept⟩ := not_or.mp (unnamed notice sent)
        rw [added, Bool.not_eq_true, Option.isSome_eq_false_iff, Option.isNone_iff_eq_none]
          at absent
        exact ⟨absent, gone ▸ kept⟩
    obtain ⟨absent, kept⟩ := unlisted
    have now := lookup id
    rw [if_neg kept] at now
    rw [MarketState.lookup_topologyOfIds] at absent
    by_cases reported : id ∈ upserted.2.new ++ upserted.2.reshaped
    · -- What is reported and not listed is gone, and it was not there before.
      rw [if_pos reported, MarketState.topologyOf, Option.map_eq_none_iff, now, stores,
        Option.or_eq_none_iff] at absent
      rw [MarketState.directionsAt, now, stores, absent.1]
      rfl
    · have silent := MarketState.directionsAt_upsertComponents decode prepared components id
      rw [upserts] at silent
      rw [MarketState.directionsAt, now, ← MarketState.directionsAt,
        silent (mt mem_append.mpr reported), MarketState.directionsAt, same]
      rfl

variable (decode) (market : MarketState P)

/-- The event of a block announces what the block changed. -/
theorem handleTychoMessage_announced (msg : Update P) :
    Announced decode market (handleTychoMessage decode market msg).1
      (msg.newPairs.map marketComponent) msg.removedComponents
      (handleTychoMessage decode market msg).2 := by
  refine announced_of_upsert rfl rfl rfl ?_ ?_
  · intro sent member
    simp only [handleTychoMessage] at member ⊢
    split at member
    · cases member
    · cases member
      exact ⟨rfl, rfl⟩
  · intro quiet
    simp only [handleTychoMessage] at quiet ⊢
    split at quiet
    · rename_i nothing
      rw [Bool.and_eq_true, Bool.and_eq_true, List.isEmpty_iff, List.isEmpty_iff] at nothing
      refine ⟨fun id => Option.eq_none_iff_forall_ne_some.mpr fun topology found => ?_, nothing.1.2⟩
      rw [lookup_eq_some_iff, nothing.1.1] at found
      cases found
    · cases quiet

/-- The event of a book announces what the book changed. -/
theorem handleBookUpdate_announced (update : BookUpdate P) :
    let own := dropForeignComponents market update
    Announced decode market (handleBookUpdate decode market update).1
      ((own.added ++ own.updated).map marketComponent) own.removed
      (some (handleBookUpdate decode market update).2) := by
  intro own
  refine announced_of_upsert rfl (rfl : (market.upsertTokens
    (own.added.flatMap FeedComponent.tokens)).components = _) rfl ?_ ?_
  · intro sent member
    cases member
    exact ⟨rfl, rfl⟩
  · intro quiet
    cases quiet

end Fynd
