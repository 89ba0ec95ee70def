import Fynd.Graph.TokenGraphExact

/-!
# Graphs grown by events and graphs built from a topology

The abstract side is the set of (component, direction) pairs that a history of
listings leaves behind. Both graph managers refine it, the topology graph with the
native wrap as a component that never loses a direction. A graph grown by events is
the graph built from the folded topology exactly when no component ends on a listing
that is refused while an older one still stands.
-/

namespace Fynd

open Foundation List

/-! ## Histories of listings -/

section History

variable {S A : Type}

/-- Lists what each event adds, then unlists what it removes. -/
def runEvents (list : S → Listing → S) (unlist : S → ComponentId → S)
    (start : S) (events : List MarketEvent) : S :=
  events.foldl (fun state event => event.removedComponents.foldl unlist
    ((sortedComponents event.addedComponents).foldl list state)) start

/-- Lists an initial topology, then runs the events. -/
def runHistory (list : S → Listing → S) (unlist : S → ComponentId → S)
    (start : S) (initial : MarketTopology) (events : List MarketEvent) : S :=
  runEvents list unlist ((sortedComponents initial).foldl list start) events

variable {list : S → Listing → S} {unlist : S → ComponentId → S}
  {list' : A → Listing → A} {unlist' : A → ComponentId → A}

variable (relates : S → A → Prop)
  (listed : ∀ state abstract component, relates state abstract →
    relates (list state component) (list' abstract component))
  (unlisted : ∀ state abstract id, relates state abstract →
    relates (unlist state id) (unlist' abstract id))
  {start : S} {start' : A} (initially : relates start start')
include listed unlisted initially

/-- **Simulation of events.** A relation that listing and unlisting keep holds along a run. -/
theorem runEvents_rel (events : List MarketEvent) :
    relates (runEvents list unlist start events) (runEvents list' unlist' start' events) := by
  refine foldl_rel initially fun event _ state abstract held => ?_
  refine foldl_rel ?_ fun id _ state abstract held => unlisted state abstract id held
  exact foldl_rel held fun component _ state abstract held =>
    listed state abstract component held

/-- **Simulation of a history.** -/
theorem runHistory_rel (initial : MarketTopology) (events : List MarketEvent) :
    relates (runHistory list unlist start initial events)
      (runHistory list' unlist' start' initial events) := by
  refine runEvents_rel relates listed unlisted ?_ events
  exact foldl_rel initially fun component _ state abstract held =>
    listed state abstract component held

end History

variable {accepts : ComponentTopology → Bool} {topology : MarketTopology} {component : Listing}
  {id : ComponentId} {initial : MarketTopology} {events : List MarketEvent}

variable (accepts topology component) in
/-- Lists a component if its listing is accepted. -/
def insertAccepted : MarketTopology :=
  if accepts component.2 then topology.insert component.1 component.2 else topology

/-- Whether a listing has the tokens it takes to form an edge. -/
def enoughTokens (topology : ComponentTopology) : Bool := 2 ≤ topology.tokens.length

variable (initial events) in
/-- The topology that events leave of an initial one. -/
def foldedTopology : MarketTopology :=
  runEvents (insertAccepted fun _ => true) (fun topology id => topology.erase id) initial events

variable (initial events) in
/-- The same with listings of fewer than two tokens passed over: the last listing of each
component, since its last removal, that could form an edge. -/
def standingTopology : MarketTopology :=
  runHistory (insertAccepted enoughTokens) (fun topology id => topology.erase id) ∅ initial events

variable (initial events) in
/-- A listing of a component in the initial topology or in an event. -/
def Listed (id : ComponentId) (topology : ComponentTopology) : Prop :=
  initial.lookup id = some topology ∨
    ∃ event ∈ events, event.addedComponents.lookup id = some topology

/-- The directions of the listed components. -/
def directionsOf (topology : MarketTopology) : Set HeldDirection :=
  {held | ∃ listed, topology.lookup held.1 = some listed ∧ held.2 ∈ listed.swapDirections}

/-! ## What a listing does to the directions held -/

/-- The directions held after a listing. A sticky component keeps those it had. -/
def holdListed (sticky : ComponentId → Prop) (held : Set HeldDirection)
    (component : Listing) : Set HeldDirection :=
  {pair | if pair.1 = component.1 ∧ 2 ≤ component.2.tokens.length then
      pair.2 ∈ component.2.swapDirections ∨ sticky component.1 ∧ pair ∈ held
    else pair ∈ held}

/-- The directions held after a removal. -/
def holdUnlisted (sticky : ComponentId → Prop) (held : Set HeldDirection)
    (id : ComponentId) : Set HeldDirection :=
  {pair | pair ∈ held ∧ (sticky id ∨ pair.1 ≠ id)}

/-- The directions held after a history. -/
def holdHistory (sticky : ComponentId → Prop) (initial : MarketTopology)
    (events : List MarketEvent) : Set HeldDirection :=
  runHistory (holdListed sticky) (holdUnlisted sticky) ∅ initial events

variable {initial : MarketTopology} {events : List MarketEvent} {sticky : ComponentId → Prop}
  {pair : HeldDirection} {held : Set HeldDirection} {component : Listing}
  {components : List Listing}

private theorem mem_holdListed : pair ∈ holdListed sticky held component ↔
    if pair.1 = component.1 ∧ 2 ≤ component.2.tokens.length then
      pair.2 ∈ component.2.swapDirections ∨ sticky component.1 ∧ pair ∈ held
    else pair ∈ held := Iff.rfl

private theorem mem_holdUnlisted :
    pair ∈ holdUnlisted sticky held id ↔ pair ∈ held ∧ (sticky id ∨ pair.1 ≠ id) := Iff.rfl

private theorem mem_directionsOf :
    pair ∈ directionsOf topology ↔
      ∃ listed, topology.lookup pair.1 = some listed ∧ pair.2 ∈ listed.swapDirections := Iff.rfl

variable (accepts topology component id) in
private theorem lookup_insertAccepted :
    (insertAccepted accepts topology component).lookup id =
      if id = component.1 ∧ accepts component.2 = true then some component.2
      else topology.lookup id := by
  unfold insertAccepted
  by_cases accepted : accepts component.2 = true <;> simp [accepted, lookup_insert_ite]

variable (initial events) in
private theorem holdHistory_eq_standing :
    holdHistory (fun _ => False) initial events =
      directionsOf (standingTopology initial events) := by
  refine runHistory_rel (fun held topology => held = directionsOf topology) ?_ ?_ ?_ initial events
  · intro held topology component same
    subst same
    ext pair
    simp only [mem_holdListed, mem_directionsOf, lookup_insertAccepted, enoughTokens,
      decide_eq_true_eq]
    by_cases both : pair.1 = component.1 ∧ 2 ≤ component.2.tokens.length <;> simp [both]
  · intro held topology id same
    subst same
    ext pair
    simp only [mem_holdUnlisted, mem_directionsOf, lookup_erase_ite]
    by_cases mine : pair.1 = id <;> simp [mine]
  · ext pair
    refine ⟨fun never => never.elim, fun ⟨listed, found, _⟩ => ?_⟩
    cases found

private theorem mem_holdHistory_of_not_sticky (plain : ¬ sticky pair.1) :
    pair ∈ holdHistory sticky initial events ↔
      pair ∈ holdHistory (fun _ => False) initial events := by
  refine runHistory_rel (fun held held' => pair ∈ held ↔ pair ∈ held') ?_ ?_ Iff.rfl initial events
  · intro held held' component same
    rw [mem_holdListed, mem_holdListed]
    by_cases both : pair.1 = component.1 ∧ 2 ≤ component.2.tokens.length
    · have plain' : ¬ sticky component.1 := both.1 ▸ plain
      simp [both, plain']
    · simp [both, same]
  · intro held held' id same
    rw [mem_holdUnlisted, mem_holdUnlisted, same]
    by_cases mine : pair.1 = id
    · have plain' : ¬ sticky id := mine ▸ plain
      simp [mine, plain']
    · simp [mine]

private theorem holdHistory_subset_sticky (sticky : ComponentId → Prop) :
    holdHistory (fun _ => False) initial events ⊆ holdHistory sticky initial events := by
  refine runHistory_rel (fun held held' : Set HeldDirection =>
    ∀ pair, pair ∈ held → pair ∈ held') ?_ ?_ (fun _ member => member) initial events
  · intro held held' component subset pair member
    rw [mem_holdListed] at member ⊢
    by_cases both : pair.1 = component.1 ∧ 2 ≤ component.2.tokens.length
    · rw [if_pos both] at member ⊢
      exact .inl (member.resolve_right fun never => never.1)
    · rw [if_neg both] at member ⊢
      exact subset pair member
  · intro held held' id subset pair member
    exact ⟨subset pair member.1, .inr (member.2.resolve_left fun never => never)⟩

private theorem mem_foldl_holdListed_of_sticky (sticks : sticky pair.1) :
    pair ∈ components.foldl (holdListed sticky) held ↔
      pair ∈ held ∨ ∃ component ∈ components, pair.1 = component.1 ∧
        2 ≤ component.2.tokens.length ∧ pair.2 ∈ component.2.swapDirections := by
  induction components generalizing held with
  | nil => simp
  | cons component rest ih =>
    rw [foldl_cons, ih, exists_mem_cons_iff, ← or_assoc]
    refine or_congr_left ?_
    rw [mem_holdListed]
    by_cases both : pair.1 = component.1 ∧ 2 ≤ component.2.tokens.length
    · have sticks' : sticky component.1 := both.1 ▸ sticks
      rw [if_pos both]
      simp [both, sticks', or_comm]
    · rw [if_neg both]
      exact ⟨.inl, fun either => either.elim (fun old => old) fun listed =>
        absurd ⟨listed.1, listed.2.1⟩ both⟩

private theorem mem_foldl_holdUnlisted {ids : List ComponentId} :
    pair ∈ ids.foldl (holdUnlisted sticky) held ↔ pair ∈ held ∧ (sticky pair.1 ∨ pair.1 ∉ ids) := by
  induction ids generalizing held with
  | nil => simp
  | cons id rest ih =>
    rw [foldl_cons, ih, mem_cons, not_or, mem_holdUnlisted]
    by_cases mine : pair.1 = id
    · rw [mine]
      tauto
    · tauto

private theorem mem_holdHistory_of_sticky (sticks : sticky pair.1) :
    pair ∈ holdHistory sticky initial events ↔ ∃ topology, Listed initial events pair.1 topology ∧
      2 ≤ topology.tokens.length ∧ pair.2 ∈ topology.swapDirections := by
  have listed : ∀ components : MarketTopology,
      (∃ component ∈ sortedComponents components, pair.1 = component.1 ∧
        2 ≤ component.2.tokens.length ∧ pair.2 ∈ component.2.swapDirections) ↔
      ∃ topology, components.lookup pair.1 = some topology ∧ 2 ≤ topology.tokens.length ∧
        pair.2 ∈ topology.swapDirections := by
    intro components
    constructor
    · intro ⟨component, member, mine, rest⟩
      exact ⟨component.2, mine ▸ mem_sortedComponents.mp member, rest⟩
    · intro ⟨topology, found, rest⟩
      exact ⟨(pair.1, topology), mem_sortedComponents.mpr found, rfl, rest⟩
  have later : ∀ (events : List MarketEvent) (held : Set HeldDirection),
      pair ∈ runEvents (holdListed sticky) (holdUnlisted sticky) held events ↔
        pair ∈ held ∨ ∃ event ∈ events, ∃ topology,
          event.addedComponents.lookup pair.1 = some topology ∧ 2 ≤ topology.tokens.length ∧
            pair.2 ∈ topology.swapDirections := by
    intro events
    induction events with
    | nil => simp [runEvents]
    | cons event rest ih =>
      intro held
      rw [exists_mem_cons_iff, ← or_assoc, ← listed, ← mem_foldl_holdListed_of_sticky sticks]
      refine (ih _).trans (or_congr_left (mem_foldl_holdUnlisted.trans ?_))
      simp only [sticks, true_or, and_true]
  rw [holdHistory, runHistory, later, mem_foldl_holdListed_of_sticky sticks, listed]
  simp only [Listed, Set.mem_empty_iff_false, false_or]
  constructor
  · intro either
    rcases either with ⟨topology, found, rest⟩ | ⟨event, member, topology, found, rest⟩
    · exact ⟨topology, .inl found, rest⟩
    · exact ⟨topology, .inr ⟨event, member, found⟩, rest⟩
  · intro ⟨topology, either, rest⟩
    rcases either with found | ⟨event, member, found⟩
    · exact .inl ⟨topology, found, rest⟩
    · exact .inr ⟨event, member, topology, found, rest⟩

/-! ## What one event does -/

variable (sticky held) in
/-- The directions held after an event. -/
def holdEvent (event : MarketEvent) : Set HeldDirection :=
  runEvents (holdListed sticky) (holdUnlisted sticky) held [event]

private theorem nodup_sortedComponents (components : MarketTopology) :
    ((sortedComponents components).map Prod.fst).Nodup := by
  have perm := (perm_insertionSort (fun left right : Listing =>
    left.1 ≤ right.1) (components.entries.map fun entry => (entry.1, entry.2))).map Prod.fst
  refine perm.nodup_iff.mpr ?_
  rw [map_map]
  exact components.nodupKeys

private theorem mem_foldl_holdListed_of_ne
    (apart : ∀ component ∈ components, component.1 ≠ pair.1) :
    pair ∈ components.foldl (holdListed sticky) held ↔ pair ∈ held := by
  induction components generalizing held with
  | nil => rfl
  | cons component rest ih =>
    obtain ⟨here, later⟩ := forall_mem_cons.mp apart
    rw [foldl_cons, ih later, mem_holdListed, if_neg fun both => here both.1.symm]

/-- One accepted listing among others of other ids. -/
theorem mem_foldl_holdListed_of_mem {topology : ComponentTopology}
    (distinct : (components.map Prod.fst).Nodup) (listed : (pair.1, topology) ∈ components)
    (enough : 2 ≤ topology.tokens.length) :
    pair ∈ components.foldl (holdListed sticky) held ↔
      pair.2 ∈ topology.swapDirections ∨ sticky pair.1 ∧ pair ∈ held := by
  induction components generalizing held with
  | nil => cases listed
  | cons component rest ih =>
    obtain ⟨fresh, distinct⟩ := nodup_cons.mp distinct
    rw [foldl_cons]
    obtain rfl | later := mem_cons.mp listed
    · rw [mem_foldl_holdListed_of_ne fun other member same =>
        fresh (mem_map.mpr ⟨other, member, same⟩), mem_holdListed, if_pos ⟨rfl, enough⟩]
    · rw [ih distinct later]
      refine or_congr_right (and_congr_right fun _ => ?_)
      rw [mem_holdListed, if_neg fun both => fresh (mem_map.mpr ⟨_, later, both.1⟩)]

section Event

variable {event : MarketEvent}

private theorem mem_holdEvent : pair ∈ holdEvent sticky held event ↔
    pair ∈ (sortedComponents event.addedComponents).foldl (holdListed sticky) held ∧
      (sticky pair.1 ∨ pair.1 ∉ event.removedComponents) :=
  mem_foldl_holdUnlisted

/-- An event leaves the directions of a component it does not name. -/
theorem mem_holdEvent_of_not_names (unnamed : ¬ event.Names pair.1) :
    pair ∈ holdEvent sticky held event ↔ pair ∈ held := by
  obtain ⟨unlisted, kept⟩ := not_or.mp unnamed
  rw [mem_holdEvent, mem_foldl_holdListed_of_ne]
  · simp [kept]
  · intro component member same
    apply unlisted
    rw [← same, mem_sortedComponents.mp member]
    rfl

/-- A listed component has the directions of its listing. -/
theorem mem_holdEvent_of_listed {topology : ComponentTopology}
    (listed : event.addedComponents.lookup pair.1 = some topology)
    (enough : 2 ≤ topology.tokens.length) (kept : pair.1 ∉ event.removedComponents) :
    pair ∈ holdEvent sticky held event ↔
      pair.2 ∈ topology.swapDirections ∨ sticky pair.1 ∧ pair ∈ held := by
  rw [mem_holdEvent, mem_foldl_holdListed_of_mem (nodup_sortedComponents _)
    (mem_sortedComponents.mpr listed) enough]
  simp [kept]

/-- A removed component that is not sticky has no direction left. -/
theorem not_mem_holdEvent_of_removed (removed : pair.1 ∈ event.removedComponents)
    (plain : ¬ sticky pair.1) : pair ∉ holdEvent sticky held event := by
  rw [mem_holdEvent]
  tauto

end Event

/-! ## Folded and standing topologies -/

private theorem lookup_standingTopology_nil {listed : ComponentTopology} :
    (standingTopology initial []).lookup id = some listed ↔
      initial.lookup id = some listed ∧ 2 ≤ listed.tokens.length := by
  have accepted : standingTopology initial [] =
      mapOfList ((sortedComponents initial).filter fun listed => enoughTokens listed.2) :=
    foldl_filter.symm
  rw [accepted, lookup_mapOfList
    ((nodup_sortedComponents initial).sublist (filter_sublist.map _)), mem_filter,
    mem_sortedComponents]
  simp [enoughTokens]

/-- Before any event the directions are those of the initial topology. -/
theorem mem_holdHistory_nil : pair ∈ holdHistory sticky initial [] ↔
    ∃ listed, initial.lookup pair.1 = some listed ∧
      2 ≤ listed.tokens.length ∧ pair.2 ∈ listed.swapDirections := by
  by_cases sticks : sticky pair.1
  · rw [mem_holdHistory_of_sticky sticks]
    simp [Listed]
  · rw [mem_holdHistory_of_not_sticky sticks, holdHistory_eq_standing]
    simp only [mem_directionsOf, lookup_standingTopology_nil, and_assoc]

variable (initial events) in
/-- A component the folded topology lacks does not stand, and one it lists with enough tokens
stands as listed. -/
theorem folded_standing (id : ComponentId) :
    ((foldedTopology initial events).lookup id = none →
      (standingTopology initial events).lookup id = none) ∧
    ∀ listed, (foldedTopology initial events).lookup id = some listed →
      2 ≤ listed.tokens.length → (standingTopology initial events).lookup id = some listed := by
  refine runEvents_rel (fun folded standing : MarketTopology =>
    (folded.lookup id = none → standing.lookup id = none) ∧
      ∀ listed, folded.lookup id = some listed → 2 ≤ listed.tokens.length →
        standing.lookup id = some listed) ?_ ?_ ?_ events
  · intro folded standing component related
    simp only [lookup_insertAccepted, enoughTokens, and_true, decide_eq_true_eq]
    by_cases mine : id = component.1
    · simp only [mine, true_and, if_true]
      refine ⟨fun none => (by cases none), fun listed found enough => ?_⟩
      obtain rfl := Option.some.inj found
      rw [if_pos enough]
    · simpa [mine] using related
  · intro folded standing other related
    simp only [lookup_erase_ite]
    split
    · simp
    · exact related
  · refine ⟨fun none => Option.eq_none_iff_forall_ne_some.mpr fun listed found => ?_,
      fun listed found enough => lookup_standingTopology_nil.mpr ⟨found, enough⟩⟩
    have known := (lookup_standingTopology_nil.mp found).1
    rw [none] at known
    cases known

/-! ## The managers -/

private theorem foldl_fst {State Note Item : Type} (step : State → Item → State)
    (note : State × Note → Item → Note) (items : List Item) (start : State × Note) :
    (items.foldl (fun state item => (step state.1 item, note state item)) start).1 =
      items.foldl step start.1 := by
  induction items generalizing start with
  | nil => rfl
  | cons item rest ih => exact ih _

/-- Handling events one after another lists what they add and unlists what they remove. -/
theorem foldl_addThenRemove {M : Type} (list : M → Listing → M)
    (remove : M → ComponentId → M × Bool) (start : M) (events : List MarketEvent) :
    events.foldl (fun manager event => (addThenRemove manager (addInOrder · list)
      (removeEach · remove) event).1) start =
      runEvents list (fun manager id => (remove manager id).1) start events := by
  refine congrArg (fun step => events.foldl step start) ?_
  funext manager event
  exact foldl_fst (fun manager id => (remove manager id).1)
    (fun state id => if (remove state.1 id).2 then state.2 else state.2 ++ [id])
    event.removedComponents (_, [])

variable {D : Type}

namespace PetgraphStableDiGraphManager

/-- The manager after a graph was built and events were handled. -/
def afterEvents (initial : MarketTopology) (events : List MarketEvent) :
    PetgraphStableDiGraphManager D :=
  events.foldl (fun manager event => (manager.handleEvent event).1) (initializeGraph initial)

variable (initial events)

private theorem withTokens_exact :
    (withTokens initial : PetgraphStableDiGraphManager D).Exact ∧
      (withTokens initial : PetgraphStableDiGraphManager D).edgeSet = ∅ := by
  have empty : (new : PetgraphStableDiGraphManager D).Exact :=
    ⟨fun token node => by simp [new, StableDiGraph.empty],
      fun held index => by simp [new, StableDiGraph.empty, trackedEdge]⟩
  have distinct : (uniqueTokens initial).Nodup :=
    (perm_insertionSort _ _).nodup_iff.mpr (nodup_dedup _)
  obtain ⟨exact, maps⟩ := foldl_addNode_exact (uniqueTokens initial) distinct empty fun _ _ => rfl
  refine ⟨exact, Set.eq_empty_iff_forall_notMem.mpr fun held member => ?_⟩
  have tracked := exact.mem_edgeSet.mp member
  rw [trackedEdge, maps] at tracked
  simp [new] at tracked

/-- The manager has exactly the edges of the directions held. -/
def Holds (manager : PetgraphStableDiGraphManager D) (held : Set HeldDirection) : Prop :=
  manager.Exact ∧ manager.edgeSet = held

variable {manager : PetgraphStableDiGraphManager D}

private theorem Holds.addComponent (holds : manager.Holds held) (component : Listing) :
    (manager.addComponent component).Holds (holdListed (fun _ => False) held component) := by
  obtain ⟨exact, rfl⟩ := holds
  obtain ⟨added, member⟩ := addComponent_exact exact component
  refine ⟨added, Set.ext fun pair => (member pair).trans ?_⟩
  change _ ↔ if _ then _ ∨ False ∧ _ else _
  simp

private theorem Holds.removeComponentEdges (holds : manager.Holds held) (id : ComponentId) :
    (manager.removeComponentEdges id).1.Holds (holdUnlisted (fun _ => False) held id) := by
  obtain ⟨exact, rfl⟩ := holds
  obtain ⟨removed, member⟩ := removeComponentEdges_edgeSet exact id
  refine ⟨removed, Set.ext fun pair => (member pair).trans ?_⟩
  change _ ↔ _ ∧ (False ∨ _)
  simp [and_comm]

/-- Events do to the edges what they do to the directions held. -/
theorem Holds.handleEvents (holds : manager.Holds held) (events : List MarketEvent) :
    (events.foldl (fun manager event => (manager.handleEvent event).1) manager).Holds
      (runEvents (holdListed fun _ => False) (holdUnlisted fun _ => False) held events) := by
  have run := runEvents_rel Holds (fun _ _ component holds => holds.addComponent component)
    (fun _ _ id holds => holds.removeComponentEdges id) holds events
  rw [← foldl_addThenRemove] at run
  exact run

theorem holds_afterEvents :
    (afterEvents initial events : PetgraphStableDiGraphManager D).Holds
      (holdHistory (fun _ => False) initial events) := by
  refine Holds.handleEvents ?_ events
  exact foldl_rel (withTokens_exact initial) fun component _ _ _ holds =>
    holds.addComponent component

/-- **Refinement.** The edges are the directions the history leaves behind. -/
theorem edgeSet_afterEvents :
    (afterEvents initial events : PetgraphStableDiGraphManager D).edgeSet =
      holdHistory (fun _ => False) initial events :=
  (holds_afterEvents initial events).2

end PetgraphStableDiGraphManager

namespace TopologyGraphManager

variable [NativeWrap]

/-- The manager after a graph was built and events were handled. -/
def afterEvents (initial : MarketTopology) (events : List MarketEvent) : TopologyGraphManager D :=
  events.foldl (fun manager event => (manager.handleEvent event).1) (initializeGraph initial)

variable (initial events)

private theorem withTokens_exact :
    (withTokens initial : TopologyGraphManager D).Exact ∧
      (withTokens initial : TopologyGraphManager D).edgeSet = ∅ := by
  have none : ∀ held, held ∉ (new : TopologyGraphManager D).edgeSet := by
    intro held ⟨edge, member, _⟩
    simp [new, TopologyGraph.empty, StableDiGraph.empty] at member
  have empty : (new : TopologyGraphManager D).Exact :=
    ⟨fun held pair tracked => by simp [new, trackedPair] at tracked,
      fun held tracked => by simp [new, trackedPair] at tracked,
      fun held _ member => absurd member (none held)⟩
  obtain ⟨exact, same⟩ := foldl_addToken_exact (uniqueTokens initial) empty
  refine ⟨exact, Set.eq_empty_iff_forall_notMem.mpr fun held member => ?_⟩
  exact none held ((same held).mp member)

/-- The manager has exactly the edges of the directions held. -/
def Holds (manager : TopologyGraphManager D) (held : Set HeldDirection) : Prop :=
  manager.Exact ∧ manager.edgeSet = held

variable {manager : TopologyGraphManager D}

private theorem Holds.addComponent (holds : manager.Holds held) (component : Listing) :
    (manager.addComponent component).Holds
      (holdListed (· = nativeWrapComponent) held component) := by
  obtain ⟨exact, rfl⟩ := holds
  obtain ⟨added, member⟩ := addComponent_exact exact component
  exact ⟨added, Set.ext member⟩

private theorem Holds.removeComponentPairs (holds : manager.Holds held) (id : ComponentId) :
    (manager.removeComponentPairs id).1.Holds
      (holdUnlisted (· = nativeWrapComponent) held id) := by
  obtain ⟨exact, rfl⟩ := holds
  obtain ⟨removed, member⟩ := removeComponentPairs_exact exact id
  exact ⟨removed, Set.ext member⟩

/-- Events do to the edges what they do to the directions held. -/
theorem Holds.handleEvents (holds : manager.Holds held) (events : List MarketEvent) :
    (events.foldl (fun manager event => (manager.handleEvent event).1) manager).Holds
      (runEvents (holdListed (· = nativeWrapComponent))
        (holdUnlisted (· = nativeWrapComponent)) held events) := by
  have run := runEvents_rel Holds (fun _ _ component holds => holds.addComponent component)
    (fun _ _ id holds => holds.removeComponentPairs id) holds events
  rw [← foldl_addThenRemove] at run
  exact run

theorem holds_afterEvents :
    (afterEvents initial events : TopologyGraphManager D).Holds
      (holdHistory (· = nativeWrapComponent) initial events) := by
  refine Holds.handleEvents ?_ events
  exact foldl_rel (withTokens_exact initial) fun component _ _ _ holds =>
    holds.addComponent component

/-- **Refinement.** The edges are the directions the history leaves behind, the wrap sticking to
all of its own. -/
theorem edgeSet_afterEvents :
    (afterEvents initial events : TopologyGraphManager D).edgeSet =
      holdHistory (· = nativeWrapComponent) initial events :=
  (holds_afterEvents initial events).2

end TopologyGraphManager

/-! ## Grown and rebuilt graphs -/

section Rebuilt

variable [NativeWrap]

/-- A component that stands on an older listing than its last one has no direction there. -/
def NoStaleListing (initial : MarketTopology) (events : List MarketEvent) : Prop :=
  ∀ id listed standing, (foldedTopology initial events).lookup id = some listed →
    listed.tokens.length < 2 → (standingTopology initial events).lookup id = some standing →
      standing.swapDirections = []

/-- The standing listing of the native wrap has every direction it was ever listed with. -/
def WrapComplete (initial : MarketTopology) (events : List MarketEvent) : Prop :=
  ∀ listed, Listed initial events nativeWrapComponent listed → 2 ≤ listed.tokens.length →
    ∀ direction ∈ listed.swapDirections,
      (nativeWrapComponent, direction) ∈ directionsOf (standingTopology initial events)

omit [NativeWrap] in
private theorem holdHistory_eq_folded_iff :
    holdHistory (fun _ => False) initial events =
        holdHistory (fun _ => False) (foldedTopology initial events) [] ↔
      NoStaleListing initial events := by
  rw [holdHistory_eq_standing, Set.ext_iff]
  simp only [mem_holdHistory_nil]
  constructor
  · intro same id listed standing folded few stands
    refine eq_nil_iff_forall_not_mem.mpr fun direction member => ?_
    obtain ⟨other, found, enough, _⟩ := (same (id, direction)).mp ⟨standing, stands, member⟩
    obtain rfl := Option.some.inj (folded.symm.trans found)
    omega
  · intro fresh pair
    obtain ⟨gone, kept⟩ := folded_standing initial events pair.1
    constructor
    · intro ⟨standing, stands, member⟩
      cases folded : (foldedTopology initial events).lookup pair.1 with
      | none =>
        rw [gone folded] at stands
        cases stands
      | some listed =>
        by_cases enough : 2 ≤ listed.tokens.length
        · obtain rfl := Option.some.inj (stands.symm.trans (kept listed folded enough))
          exact ⟨standing, rfl, enough, member⟩
        · have none := fresh _ _ _ folded (Nat.lt_of_not_le enough) stands
          rw [none] at member
          cases member
    · intro ⟨listed, folded, enough, member⟩
      exact ⟨listed, kept listed folded enough, member⟩

private theorem holdHistory_eq_sticky_iff :
    holdHistory (fun _ => False) initial events =
        holdHistory (· = nativeWrapComponent) initial events ↔
      WrapComplete initial events := by
  have gathered : ∀ pair : HeldDirection, pair.1 = nativeWrapComponent →
      (pair ∈ holdHistory (· = nativeWrapComponent) initial events ↔ _) :=
    fun pair wrap => mem_holdHistory_of_sticky wrap
  constructor
  · intro same listed found enough direction member
    rw [← holdHistory_eq_standing, same, gathered _ rfl]
    exact ⟨listed, found, enough, member⟩
  · intro complete
    refine (holdHistory_subset_sticky _).antisymm fun pair member => ?_
    by_cases wrap : pair.1 = nativeWrapComponent
    · obtain ⟨listed, found, enough, listing⟩ := (gathered pair wrap).mp member
      rw [holdHistory_eq_standing, ← Prod.mk.eta (p := pair), wrap]
      exact complete listed (wrap ▸ found) enough pair.2 listing
    · exact (mem_holdHistory_of_not_sticky wrap).mp member

/-- **Grown graphs and rebuilt graphs.** The index of the topology graph names exactly one edge
for each connected pair, and no edge lacks a pool or lists one twice. Both managers hold after any
events the edges that building the folded topology gives, and the same as each other, exactly if no
listing is stale and the native wrap is complete. -/
theorem grown_eq_rebuilt_iff (initial : MarketTopology) (events : List MarketEvent) :
    let grown : PetgraphStableDiGraphManager D := .afterEvents initial events
    let grown' : TopologyGraphManager D := .afterEvents initial events
    let folded := foldedTopology initial events
    ((∀ pair index, grown'.graph.pairIndex.lookup pair = some index ↔
        ∃ edge ∈ grown'.graph.graph.edges, (edge.source, edge.target) = pair ∧
          edge.index = index) ∧
      (∀ first ∈ grown'.graph.graph.edges, ∀ second ∈ grown'.graph.graph.edges,
        first.source = second.source → first.target = second.target → first = second) ∧
      ∀ edge ∈ grown'.graph.graph.edges, edge.weight.pools ≠ [] ∧
        (edge.weight.pools.map EdgeData.componentId).Nodup) ∧
    ((grown.edgeSet = (PetgraphStableDiGraphManager.initializeGraph folded :
          PetgraphStableDiGraphManager D).edgeSet ∧
        grown'.edgeSet = (TopologyGraphManager.initializeGraph folded :
          TopologyGraphManager D).edgeSet ∧
        grown.edgeSet = grown'.edgeSet) ↔
      NoStaleListing initial events ∧ WrapComplete initial events) := by
  intro grown grown' folded
  refine ⟨⟨grown'.graph.pairs_exact,
    fun first here second there => TopologyGraph.edge_unique here there,
    fun edge member => ⟨grown'.graph.traded edge member, edge.weight.once⟩⟩, ?_⟩
  have rebuilt : (PetgraphStableDiGraphManager.initializeGraph folded :
      PetgraphStableDiGraphManager D).edgeSet = holdHistory (fun _ => False) folded [] :=
    PetgraphStableDiGraphManager.edgeSet_afterEvents folded []
  have rebuilt' : (TopologyGraphManager.initializeGraph folded :
      TopologyGraphManager D).edgeSet = holdHistory (fun _ => False) folded [] := by
    refine (TopologyGraphManager.edgeSet_afterEvents folded []).trans (Set.ext fun pair => ?_)
    rw [mem_holdHistory_nil, mem_holdHistory_nil]
  rw [rebuilt, rebuilt', PetgraphStableDiGraphManager.edgeSet_afterEvents,
    TopologyGraphManager.edgeSet_afterEvents, ← holdHistory_eq_folded_iff,
    ← holdHistory_eq_sticky_iff]
  constructor
  · intro ⟨first, _, third⟩
    exact ⟨first, third⟩
  · intro ⟨first, third⟩
    exact ⟨first, third ▸ first, third⟩

end Rebuilt

section Samples

attribute [local instance] sampleWrap

/-- A pool of two tokens in the initial topology. -/
def relistedInitial : MarketTopology := topologyOf [("p", [(0, 1), (1, 0)])]

/-- The pool is listed again, with one token and no direction. -/
def relistedEvent : MarketEvent := ⟨mapOfList [("p", ⟨[0], []⟩)], [], []⟩

/-- A pool that is listed again with one token keeps its edges in both graphs, although neither
graph built from the folded topology has them. -/
theorem relisted_pool_keeps_edges :
    ("p", (0, 1)) ∈ (PetgraphStableDiGraphManager.afterEvents relistedInitial [relistedEvent] :
      PetgraphStableDiGraphManager Unit).edgeSet ∧
    ("p", (0, 1)) ∈ (TopologyGraphManager.afterEvents relistedInitial [relistedEvent] :
      TopologyGraphManager Unit).edgeSet ∧
    (PetgraphStableDiGraphManager.initializeGraph
      (foldedTopology relistedInitial [relistedEvent]) :
      PetgraphStableDiGraphManager Unit).graph.edges = [] ∧
    (TopologyGraphManager.initializeGraph
      (foldedTopology relistedInitial [relistedEvent]) :
      TopologyGraphManager Unit).graph.graph.edges = [] := by
  refine ⟨?_, ?_, by decide +kernel, by decide +kernel⟩
  · change ∃ edge ∈ _, _
    decide +kernel
  · change ∃ edge ∈ _, ∃ pool ∈ _, _
    decide +kernel

end Samples

end Fynd
