import Fynd.Feed.BookStream

/-!
# Which books a venue owns

The components under the protocol system of a venue are its own. After each of its updates they are
the books it published last, but for those whose id the market holds under another system, and
nothing under another system has changed. This rests on what the stream remembers: whatever the
market holds of a venue is among the books it served last. For the same reason the events describe
the market exactly: a book that the market holds is published again as an update.
-/

namespace Fynd

open Foundation List

variable {P : Type}

/-- The book of a set under an id, the last of several. -/
def publishedAs (snapshot : LiquiditySnapshot P) (id : ComponentId) : Option (FeedComponent × P) :=
  (snapshot.filter fun entry => entry.1.id = id).getLast?

/-- After an update of a venue its components are those of a published set whose id was not held
under another system, with the states of that set. What other systems hold is as before. -/
structure OwnsExactly (protocolSystem : String) (snapshot : LiquiditySnapshot P)
    (before after : MarketState P) : Prop where
  components : ∀ id component, after.getComponent id = some component ∧
      component.protocolSystem = protocolSystem ↔
    heldElsewhere before protocolSystem id = none ∧
      (publishedAs snapshot id).map (fun entry => marketComponent entry.1) = some component
  states : ∀ id entry, heldElsewhere before protocolSystem id = none →
    publishedAs snapshot id = some entry → after.getSimulationState id = some entry.2
  others : ∀ id component, component.protocolSystem ≠ protocolSystem →
    (after.getComponent id = some component ↔ before.getComponent id = some component)
  otherStates : ∀ id, heldElsewhere before protocolSystem id ≠ none →
    after.getSimulationState id = before.getSimulationState id

/-! ## What an update writes -/

private theorem MarketState.simulationStates_removeComponents (market : MarketState P)
    (ids : List ComponentId) : (market.removeComponents ids).simulationStates =
      ids.foldl (fun map id => map.erase id) market.simulationStates := by
  induction ids generalizing market with
  | nil => rfl
  | cons id rest ih => exact ih (market.removeComponent id)

section Update

variable {decode : DirectionsDecoder} {market : MarketState P}
  {books : BookStream} {protocolSystem : String} {snapshot : LiquiditySnapshot P}

private theorem filter_and_of_id {id : ComponentId} {keep : FeedComponent × P → Bool} (kept : Bool)
    (alike : ∀ entry ∈ snapshot, entry.1.id = id → keep entry = kept) :
    (snapshot.filter fun entry => decide (entry.1.id = id) && keep entry) =
      if kept then snapshot.filter fun entry => entry.1.id = id else [] := by
  have pointwise : ∀ entry ∈ snapshot, (decide (entry.1.id = id) && keep entry) =
      (decide (entry.1.id = id) && kept) := by
    intro entry member
    by_cases here : entry.1.id = id
    · rw [alike entry member here]
    · simp [here]
  rw [filter_congr pointwise]
  cases kept <;> simp

variable (market books protocolSystem snapshot) in
/-- What is left of an update under an id: nothing if another system holds it. -/
theorem dropForeignComponents_at (id : ComponentId) :
    let own := dropForeignComponents market (books.apply protocolSystem snapshot).1
    let mine := if (heldElsewhere market protocolSystem id).isNone then
      snapshot.filter fun entry => entry.1.id = id else []
    ((own.added ++ own.updated).filter fun component => component.id = id) = mine.map Prod.fst ∧
      (own.states.filter fun state => state.1 = id) =
        mine.map (fun entry => (entry.1.id, entry.2)) ∧
      (id ∈ own.removed ↔ id ∈ books.servedBy protocolSystem ∧
        heldElsewhere market protocolSystem id = none ∧ publishedAs snapshot id = none) := by
  intro own mine
  simp only [own, mine, dropForeignComponents, BookStream.apply, filter_append,
    filter_filter, filter_map, Function.comp_apply, mem_filter]
  refine ⟨?_, ?_, ?_⟩
  · rw [filter_and_of_id ((heldElsewhere market protocolSystem id).isNone &&
        decide (id ∉ books.servedBy protocolSystem)) ?_,
      filter_and_of_id ((heldElsewhere market protocolSystem id).isNone &&
        decide (id ∈ books.servedBy protocolSystem)) ?_]
    · by_cases served : id ∈ books.servedBy protocolSystem <;> simp [served]
    · rintro entry _ rfl
      simp
    · rintro entry _ rfl
      simp
  · rw [filter_and_of_id (heldElsewhere market protocolSystem id).isNone ?_]
    rintro entry member rfl
    rw [← Option.not_isSome, Bool.not_inj_iff, Bool.eq_iff_iff, any_eq_true]
    constructor
    · rintro ⟨component, _, found⟩
      rw [Bool.and_eq_true, beq_iff_eq] at found
      exact found.1 ▸ found.2
    · intro foreign
      refine ⟨entry.1, ?_, by simp [foreign]⟩
      by_cases served : entry.1.id ∈ books.servedBy protocolSystem
      · exact mem_append_right _ (by simpa [served] using ⟨_, member⟩)
      · exact mem_append_left _ (by simpa [served] using ⟨_, member⟩)
  · simp [publishedAs]

/-- What an update leaves under an id. -/
theorem lookup_handleBookUpdate (decode : DirectionsDecoder)
    (market : MarketState P) (update : BookUpdate P) (id : ComponentId) :
    let own := dropForeignComponents market update
    (handleBookUpdate decode market update).1.getComponent id = (if id ∈ own.removed then none else
        (((own.added ++ own.updated).filter fun component => component.id = id).getLast?.map
          marketComponent).or (market.getComponent id)) ∧
      (handleBookUpdate decode market update).1.getSimulationState id =
        ((own.states.filter fun state => state.1 = id).getLast?.map Prod.snd).or
          (if id ∈ own.removed then none else market.getSimulationState id) := by
  intro own
  constructor
  · change Option.map _ ((MarketState.removeComponents (MarketState.upsertComponents ..).1
      _).components.lookup id) = _
    rw [MarketState.lookup_removeComponents, MarketState.lookup_upsertComponents, filter_map,
      getLast?_map, Option.map_map]
    split
    · rfl
    · rw [Option.map_or, Option.map_map]
      rfl
  · change (List.foldl _ (MarketState.removeComponents (MarketState.upsertComponents ..).1
      _).simulationStates _).lookup id = _
    rw [lookup_foldl_insert, MarketState.simulationStates_removeComponents,
      lookup_foldl_erase, (MarketState.frame_upsertComponents ..).2.2]
    rfl

private theorem heldElsewhere_eq_none_iff {id : ComponentId} {component : ProtocolComponent}
    (found : market.getComponent id = some component) :
    heldElsewhere market protocolSystem id = none ↔ component.protocolSystem = protocolSystem := by
  simp [heldElsewhere, found]

variable {after : MarketState P} {id : ComponentId}
  (applied : (handleBookUpdate decode market (books.apply protocolSystem snapshot).1).1 = after)
  (systems : ∀ entry ∈ snapshot, entry.1.protocolSystem = protocolSystem)
  (remembered : ∀ id component, market.getComponent id = some component →
    component.protocolSystem = protocolSystem → id ∈ books.servedBy protocolSystem)

include applied in
private theorem lookup_of_held {system : String}
    (held : heldElsewhere market protocolSystem id = some system) :
    after.getComponent id = market.getComponent id ∧
      after.getSimulationState id = market.getSimulationState id := by
  subst applied
  obtain ⟨components, states⟩ :=
    lookup_handleBookUpdate decode market (books.apply protocolSystem snapshot).1 id
  obtain ⟨stored, written, removed⟩ :=
    dropForeignComponents_at market books protocolSystem snapshot id
  rw [stored] at components
  rw [written] at states
  simp [components, states, removed, held]

include applied remembered in
private theorem lookup_of_own (own : heldElsewhere market protocolSystem id = none) :
    after.getComponent id =
        (publishedAs snapshot id).map (fun entry => marketComponent entry.1) ∧
      ∀ entry, publishedAs snapshot id = some entry →
        after.getSimulationState id = some entry.2 := by
  subst applied
  obtain ⟨components, states⟩ :=
    lookup_handleBookUpdate decode market (books.apply protocolSystem snapshot).1 id
  obtain ⟨stored, written, removed⟩ :=
    dropForeignComponents_at market books protocolSystem snapshot id
  rw [own, Option.isNone_none, if_pos rfl] at stored written
  rw [stored, getLast?_map] at components
  rw [written, getLast?_map] at states
  change _ = ite _ _ (((publishedAs snapshot id).map _ |>.map _).or _) at components
  change _ = (((publishedAs snapshot id).map _).map _).or _ at states
  cases published : publishedAs snapshot id with
  | some entry =>
    rw [published] at components states removed
    rw [if_neg fun gone => by cases (removed.mp gone).2.2] at components
    refine ⟨components, fun other same => ?_⟩
    obtain rfl := Option.some.inj same
    exact states
  | none =>
    rw [published] at components
    refine ⟨components.trans ?_, by simp⟩
    split
    · rfl
    · rename_i kept
      refine Option.eq_none_iff_forall_ne_some.mpr fun component found => ?_
      have served := remembered id component found ((heldElsewhere_eq_none_iff found).mp own)
      exact kept (removed.mpr ⟨served, own, published⟩)

include applied systems remembered

private theorem protocolSystem_of_own (own : heldElsewhere market protocolSystem id = none)
    {component : ProtocolComponent} (found : after.getComponent id = some component) :
    component.protocolSystem = protocolSystem := by
  rw [(lookup_of_own applied remembered own).1] at found
  obtain ⟨entry, published, rfl⟩ := Option.map_eq_some_iff.mp found
  exact systems entry (mem_of_mem_filter (mem_of_mem_getLast? published))

/-- **An update leaves a venue its own books**, if the stream remembers what the market holds of
it. -/
theorem ownsExactly_of_remembered : OwnsExactly protocolSystem snapshot market after := by
  refine ⟨fun id component => ?_, fun id entry own => ?_, fun id component other => ?_,
    fun id foreign => ?_⟩
  · cases held : heldElsewhere market protocolSystem id with
    | some system =>
      rw [(lookup_of_held applied held).1]
      refine iff_of_false ?_ (by simp)
      rintro ⟨found, mine⟩
      cases held.symm.trans ((heldElsewhere_eq_none_iff found).mpr mine)
    | none =>
      rw [← (lookup_of_own applied remembered held).1]
      refine ⟨fun found => ⟨rfl, found.1⟩, fun found => ⟨found.2, ?_⟩⟩
      exact protocolSystem_of_own applied systems remembered held found.2
  · exact (lookup_of_own applied remembered own).2 entry
  · cases held : heldElsewhere market protocolSystem id with
    | some system => rw [(lookup_of_held applied held).1]
    | none =>
      refine iff_of_false (other ∘ protocolSystem_of_own applied systems remembered held) ?_
      exact fun found => other ((heldElsewhere_eq_none_iff found).mp held)
  · obtain ⟨system, held⟩ := Option.ne_none_iff_exists'.mp foreign
    exact (lookup_of_held applied held).2

end Update

/-! ## Histories -/

namespace FeedInput

/-- The books of a venue carry its system, and other messages no component of a venue. -/
def Respects (venue : String → Prop) : FeedInput P → Prop
  | .update _ msg => ∀ pair ∈ msg.newPairs, ¬venue pair.protocolSystem
  | .publish protocolSystem snapshot =>
    venue protocolSystem ∧ ∀ entry ∈ snapshot, entry.1.protocolSystem = protocolSystem
  | .withdraw protocolSystem => venue protocolSystem

/-- Components that an input lists under one id have the same directions. The maps of the source
hold one component for each id. -/
def Agrees (decode : DirectionsDecoder) : FeedInput P → Prop
  | .update _ msg => MarketState.Agree decode (msg.newPairs.map marketComponent)
  | .publish _ snapshot =>
    MarketState.Agree decode (snapshot.map fun entry => marketComponent entry.1)
  | .withdraw _ => True

/-- A venue owns exactly what it has published: nothing after a withdrawal. -/
def Settles (before after : MarketState P) : FeedInput P → Prop
  | .update _ _ => True
  | .publish protocolSystem snapshot => OwnsExactly protocolSystem snapshot before after
  | .withdraw protocolSystem => OwnsExactly protocolSystem [] before after

end FeedInput

namespace FeedState

variable {decode : DirectionsDecoder} {maxSyncLag : Duration}
  {venue : String → Prop} {state : FeedState P}

/-- Whatever the market holds of a venue is among the books it served last. -/
def Remembers (venue : String → Prop) (state : FeedState P) : Prop :=
  ∀ id component, state.market.data.getComponent id = some component →
    venue component.protocolSystem → id ∈ state.books.servedBy component.protocolSystem

/-- An empty update is not applied, and would change nothing. -/
theorem data_elim_book (market : MarketData P) {update : BookUpdate P}
    (refreshed : update.states = [] → update.updated = []) :
    (handleBookUpdate decode market.data update).1 =
      ((if update.isEmpty then none else some (FeedMessage.book update)).elim market
        (market.handle decode maxSyncLag)).data := by
  split
  · rename_i empty
    obtain ⟨protocolSystem, added, removed, updated, states⟩ := update
    simp only [BookUpdate.isEmpty, Bool.and_eq_true, List.isEmpty_iff] at empty
    obtain ⟨⟨rfl, rfl⟩, rfl⟩ := empty
    obtain rfl := refreshed rfl
    rfl
  · rfl

section

variable (decode : DirectionsDecoder)

private theorem Remembers.books
    (remembers : state.Remembers venue) {protocolSystem : String} (known : venue protocolSystem)
    {snapshot : LiquiditySnapshot P}
    (systems : ∀ entry ∈ snapshot, entry.1.protocolSystem = protocolSystem)
    {after : FeedState P} (applied : (handleBookUpdate decode state.market.data
      (state.books.apply protocolSystem snapshot).1).1 = after.market.data)
    (served : ∀ system, after.books.servedBy system =
      if system = protocolSystem then ((snapshot.map Prod.fst).map FeedComponent.id).dedup
      else state.books.servedBy system) :
    OwnsExactly protocolSystem snapshot state.market.data after.market.data ∧
      after.Remembers venue := by
  have owns := ownsExactly_of_remembered applied systems fun id component found mine =>
    mine ▸ remembers id component found (mine ▸ known)
  refine ⟨owns, fun id component found known => ?_⟩
  rw [served]
  split
  · rename_i mine
    have listed := ((owns.components id component).mp ⟨found, mine⟩).2
    obtain ⟨entry, last, _⟩ := Option.map_eq_some_iff.mp listed
    obtain ⟨member, same⟩ := mem_filter.mp (mem_of_mem_getLast? last)
    rw [mem_dedup, map_map]
    exact mem_map.mpr ⟨entry, member, of_decide_eq_true same⟩
  · rename_i other
    exact remembers id component ((owns.others id component other).mp found) known

private theorem Remembers.receive (maxSyncLag : Duration)
    (remembers : state.Remembers venue) {input : FeedInput P} (respects : input.Respects venue) :
    input.Settles state.market.data (state.receive decode maxSyncLag input).market.data ∧
      (state.receive decode maxSyncLag input).Remembers venue := by
  cases input with
  | update stream msg =>
    refine ⟨trivial, fun id component found known => ?_⟩
    obtain ⟨stored, here, rfl⟩ := Option.map_eq_some_iff.mp found
    have announced := state.market.handle_announced decode maxSyncLag (.update stream msg)
    obtain before | ⟨member, _, _⟩ := announced.origin here
    · exact remembers id _ (by rw [MarketState.getComponent, before]; rfl) known
    · obtain ⟨pair, brought, same⟩ := mem_map.mp member
      rw [← same] at known
      exact absurd known (respects pair brought)
  | publish protocolSystem snapshot =>
    refine remembers.books decode respects.1 respects.2
      (data_elim_book state.market fun silent => ?_) fun system => ?_
    · rw [map_eq_nil_iff.mp silent]
      rfl
    · simp only [FeedState.receive, message, BookStream.apply, BookStream.servedBy,
        lookup_insert_ite]
      split <;> rfl
  | withdraw protocolSystem =>
    have same : (state.books.apply protocolSystem ([] : LiquiditySnapshot P)).1 =
        (state.books.withdraw protocolSystem).1 := by
      simp [BookStream.apply, BookStream.withdraw]
    refine remembers.books decode respects (by simp) ?_ fun system => ?_
    · rw [same]
      exact data_elim_book state.market fun _ => rfl
    · simp only [FeedState.receive, message, BookStream.withdraw, BookStream.servedBy,
        lookup_erase_ite]
      split <;> rfl

/-- Along a history that respects the venues, the stream remembers what the market holds of them. -/
theorem remembers_traceFold (maxSyncLag : Duration)
    {inputs : List (FeedInput P)} (respected : ∀ input ∈ inputs, input.Respects venue) :
    ∀ entry ∈ traceFold (receive decode maxSyncLag) start inputs, entry.1.Remembers venue := by
  have trace := Trace.fold (receive decode maxSyncLag) start inputs
  intro entry member
  refine ((trace.invariant (Remembers venue) (fun id component found => ?_) ?_).1 entry member).1
  · simp [start, MarketData.newShared, MarketState.new, MarketState.getComponent] at found
  · intro entry member remembers
    exact (remembers.receive decode maxSyncLag
      (respected _ (Trace.step_mem_of_mem_traceFold member))).2

/-- **Venues own exactly their own books** after each of their updates, in every history. -/
theorem venues_own_their_books (maxSyncLag : Duration) (venue : String → Prop)
    (inputs : List (FeedInput P)) (respected : ∀ input ∈ inputs, input.Respects venue) :
    ∀ entry ∈ traceFold (receive decode maxSyncLag) start inputs,
      entry.2.Settles entry.1.market.data
        (entry.1.receive decode maxSyncLag entry.2).market.data := by
  intro entry member
  have remembers := remembers_traceFold decode maxSyncLag respected entry member
  exact (remembers.receive decode maxSyncLag
    (respected _ (Trace.step_mem_of_mem_traceFold member))).1

end

/-- A venue publishes a book under the id of a pool on chain. -/
def collidingInputs : List (FeedInput Unit) :=
  [.update .protocol ⟨[⟨"x", "uniswap_v2", [], ∅⟩], [], [], 0, []⟩,
    .publish "rfq:venue" (bookOf [])]

/-- The book of a venue that shares an id with a pool of the stream. -/
theorem colliding_book_not_owned :
    OwnsExactly "rfq:venue" (bookOf [])
      ((collidingInputs.take 1).foldl (receive (fun _ => none) 0) start).market.data
      (collidingInputs.foldl (receive (fun _ => none) 0) start).market.data := by
  refine venues_own_their_books (fun _ => none) 0 (· ≠ "uniswap_v2") collidingInputs ?_
    (_, .publish "rfq:venue" (bookOf [])) (.tail _ (.head _))
  simp [collidingInputs, FeedInput.Respects, bookOf]

/-! ## What the events say -/

section Events

variable (decode : DirectionsDecoder) (maxSyncLag : Duration)

/-- The event an input is followed by. -/
def broadcast (state : FeedState P) (input : FeedInput P) : Option MarketEvent :=
  (state.message input).1.bind (state.market.broadcast decode)

/-- The ids an input writes a state for. -/
def statesWritten (state : FeedState P) (input : FeedInput P) : List ComponentId :=
  (state.message input).1.elim [] state.market.statesWritten

/-- The feed and the topology of a reader of its events, one input later. -/
def follow (pair : FeedState P × MarketTopology)
    (input : FeedInput P) : FeedState P × MarketTopology :=
  (pair.1.receive decode maxSyncLag input,
    (pair.1.broadcast decode input).elim pair.2 (applyEvent pair.2))

/-- The events describe the market along a history of inputs. -/
structure DescribedByEvents (inputs : List (FeedInput P)) : Prop where
  topology : ∀ seen, seen <+: inputs → ∀ id,
    let reached := seen.foldl (follow decode maxSyncLag) (start, ∅)
    (reached.2.lookup id).map ComponentTopology.swapDirections =
      (reached.1.market.data.componentTopology.lookup id).map ComponentTopology.swapDirections
  updated : ∀ entry ∈ traceFold (receive decode maxSyncLag) start inputs,
    ∀ id ∈ entry.1.statesWritten entry.2, (entry.1.market.data.directionsAt id).isSome = true →
      (entry.1.receive decode maxSyncLag entry.2).market.data.directionsAt id =
        entry.1.market.data.directionsAt id →
      ∃ event ∈ entry.1.broadcast decode entry.2, id ∈ event.updatedComponents
  present : ∀ entry ∈ traceFold (receive decode maxSyncLag) start inputs,
    ∀ event ∈ entry.1.broadcast decode entry.2,
      ∀ id, (event.addedComponents.lookup id).isSome = true →
        ((entry.1.receive decode maxSyncLag entry.2).market.data.topologyOf id).isSome = true

end Events

/-- What a book update of a venue has left is among its books. -/
theorem mem_snapshot_of_stored {books : BookStream} {protocolSystem : String}
    {snapshot : LiquiditySnapshot P} {component : ProtocolComponent}
    (stored : component ∈ state.market.storedBy (.book (books.apply protocolSystem snapshot).1)) :
    component ∈ snapshot.map fun entry => marketComponent entry.1 := by
  obtain ⟨listed, member, rfl⟩ := mem_map.mp stored
  rw [← Function.comp_def, ← map_map]
  refine mem_map_of_mem ?_
  obtain added | updated := mem_append.mp member
  · exact mem_of_mem_filter (mem_of_mem_filter added)
  · exact mem_of_mem_filter (mem_of_mem_filter updated)

/-- A book update of a venue lists what the market holds of it as updated. -/
theorem Remembers.refreshed (remembers : state.Remembers venue) {protocolSystem : String}
    (known : venue protocolSystem) {snapshot : LiquiditySnapshot P} {id : ComponentId}
    (written : id ∈ state.market.statesWritten
      (.book (state.books.apply protocolSystem snapshot).1))
    (held : (state.market.data.directionsAt id).isSome = true) :
    id ∈ (dropForeignComponents state.market.data
      (state.books.apply protocolSystem snapshot).1).updated.map FeedComponent.id := by
  obtain ⟨-, states, -⟩ :=
    dropForeignComponents_at state.market.data state.books protocolSystem snapshot id
  obtain ⟨write, wrote, rfl⟩ := mem_map.mp written
  have mine : write ∈ List.filter (fun entry => decide (entry.1 = write.1)) _ :=
    mem_filter.mpr ⟨wrote, decide_eq_true rfl⟩
  rw [states] at mine
  split at mine
  · rename_i own
    obtain ⟨entry, listed, same⟩ := mem_map.mp mine
    obtain ⟨member, named⟩ := mem_filter.mp listed
    obtain ⟨component, found⟩ := Option.isSome_iff_exists.mp
      (show (state.market.data.getComponent write.1).isSome = true by
        simpa [MarketState.directionsAt, MarketState.getComponent] using held)
    have system := (heldElsewhere_eq_none_iff found).mp (Option.isNone_iff_eq_none.mp own)
    have served := remembers write.1 component found (system ▸ known)
    rw [system] at served
    have named := of_decide_eq_true named
    refine mem_map.mpr ⟨entry.1, mem_filter.mpr ⟨mem_filter.mpr ⟨mem_map_of_mem member, ?_⟩, ?_⟩,
      named⟩
    · simpa [named] using served
    · simpa [named, BookStream.apply] using own
  · cases mine

/-- A message that an input comes to writes the state of a component the market holds only with
naming it as updated. -/
theorem Remembers.refreshes (remembers : state.Remembers venue) {input : FeedInput P}
    (respects : input.Respects venue) (agrees : input.Agrees decode) {message : FeedMessage P}
    (sent : (state.message input).1 = some message) : state.market.Refreshes decode message := by
  cases input with
  | update stream msg =>
    cases sent
    exact ⟨agrees, fun update same => nomatch same⟩
  | publish protocolSystem snapshot =>
    dsimp only [FeedState.message] at sent
    split at sent
    · cases sent
    · cases sent
      refine ⟨fun component member other also => agrees component
        (mem_snapshot_of_stored member) other (mem_snapshot_of_stored also), ?_⟩
      rintro update same id written held
      cases same
      exact remembers.refreshed respects.1 written held
  | withdraw protocolSystem =>
    dsimp only [FeedState.message] at sent
    split at sent
    · cases sent
    · cases sent
      constructor
      · simp [MarketState.Agree, MarketData.storedBy, dropForeignComponents, BookStream.withdraw]
      · rintro update same id written
        simp [MarketData.statesWritten, dropForeignComponents, BookStream.withdraw] at written

/-- Who follows the events knows the directions of the market. -/
theorem topology_follow (maxSyncLag : Duration) (inputs : List (FeedInput P))
    {topology : MarketTopology}
    (known : ∀ id, (topology.lookup id).map ComponentTopology.swapDirections =
      state.market.data.directionsAt id) (id : ComponentId) :
    let reached := inputs.foldl (follow decode maxSyncLag) (state, topology)
    (reached.2.lookup id).map ComponentTopology.swapDirections =
      reached.1.market.data.directionsAt id := by
  induction inputs generalizing state topology with
  | nil => exact known id
  | cons input rest ih =>
    refine ih fun other => ?_
    dsimp only [follow, broadcast, receive]
    cases (state.message input).1 with
    | none => exact known other
    | some message =>
      exact (state.market.handle_announced decode maxSyncLag message).applyEvent (known other)

/-- **The event stream describes the market.** In every history of messages and books of venues
with systems of their own, the topology of a reader of the events is that of the market after every
input, what an event adds is in the market, and every component whose state alone was written is
named as updated. -/
theorem described_by_events (decode : DirectionsDecoder)
    (maxSyncLag : Duration) (venue : String → Prop) (inputs : List (FeedInput P))
    (respected : ∀ input ∈ inputs, input.Respects venue)
    (agreed : ∀ input ∈ inputs, input.Agrees decode) :
    DescribedByEvents decode maxSyncLag inputs where
  topology := by
    intro seen _ id reached
    exact (topology_follow maxSyncLag seen (fun _ => rfl) id).trans
      (MarketState.directionsAt_eq reached.1.market.data id).symm
  updated := by
    intro entry member id written held unchanged
    have remembers := remembers_traceFold decode maxSyncLag respected entry member
    have listed := Trace.step_mem_of_mem_traceFold member
    dsimp only [statesWritten, broadcast, receive] at written unchanged ⊢
    cases sent : (entry.1.message entry.2).1 with
    | none =>
      rw [sent] at written
      cases written
    | some message =>
      rw [sent] at written unchanged
      exact MarketData.updated_of_refreshes
        (remembers.refreshes (respected _ listed) (agreed _ listed) sent) written held unchanged
  present := by
    intro entry _ event sent id added
    obtain ⟨message, comes, sent⟩ := Option.bind_eq_some_iff.mp sent
    obtain ⟨topology, listed⟩ := Option.isSome_iff_exists.mp added
    have announced := entry.1.market.handle_announced decode maxSyncLag message
    dsimp only [receive]
    rw [comes, Option.elim_some, announced.listed event sent id topology listed]
    rfl

/-- A venue publishes a book under the id of a pool on chain, and once the pool is gone it publishes
the book twice more. -/
def republishedInputs : List (FeedInput Unit) :=
  collidingInputs ++ [.update .protocol ⟨[], ["X"], [], 1, []⟩, .publish "rfq:venue" (bookOf []),
    .publish "rfq:venue" (bookOf [])]

/-- A run of the feed with a book that is published again. -/
theorem republished_book_described :
    DescribedByEvents (fun _ => none) 0 republishedInputs := by
  refine described_by_events (fun _ => none) 0 (· ≠ "uniswap_v2") republishedInputs ?_ ?_
  · simp [republishedInputs, collidingInputs, FeedInput.Respects, bookOf]
  · simp [republishedInputs, collidingInputs, FeedInput.Agrees, MarketState.Agree, bookOf]

end FeedState

end Fynd
