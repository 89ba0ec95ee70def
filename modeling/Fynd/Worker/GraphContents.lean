import Fynd.Foundation.Trace
import Fynd.Worker.SolverWorker

/-!
# What the graph of a worker holds

Once every event is processed, the graph should have the directions of the components of
the market that the worker does not leave out. Two invariants carry this along a run. The
queue: the last pending event that names a component agrees with the market on its
directions. The graph: it is right about the components no pending event names, and holds
none that the market knows as one to leave out.
-/

namespace Fynd

open Foundation List

variable {P M : Type} [LawfulGraphManager M] {decode : DirectionsDecoder}

/-- The directions of the components of a market that are not dropped. -/
def admittedEdges (market : MarketState P) (drop : ProtocolComponent → Bool) : Set HeldDirection :=
  {held | ∃ stored, market.components.lookup held.1 = some stored ∧
    drop stored.component = false ∧ held.2 ∈ stored.swapDirections}

/-! ## The condition on writes -/

/-- A write that the worker can follow. -/
structure CleanWrite (decode : DirectionsDecoder) (system : System P M)
    (components : List ProtocolComponent) (removed : List ComponentId) : Prop where
  /-- Each component has the two tokens a graph asks for. -/
  tokens : ∀ component ∈ components, 2 ≤ component.tokens.length
  /-- A component to leave out comes under an id the graph has no edge of. -/
  apart : ∀ component ∈ components, system.worker.graphDrops component = true →
    ∀ direction, (component.id, direction) ∉ GraphManager.edgeSet system.worker.graphManager
  /-- A component to let in that replaces one to leave out has other directions. -/
  relisted : ∀ component ∈ components, ∀ stored,
    system.market.components.lookup component.id = some stored →
      system.worker.graphDrops stored.component = true →
        system.worker.graphDrops component = false →
          swapDirections decode component ≠ stored.swapDirections
  /-- A permanent component is not removed and keeps its directions. -/
  permanent : ∀ id, LawfulGraphManager.permanent M id → id ∉ removed ∧
    ∀ component ∈ components, component.id = id → ∀ stored,
      system.market.components.lookup id = some stored →
        stored.swapDirections ⊆ swapDirections decode component

/-- A step of the worker, or a write it can follow. -/
def CleanStep (decode : DirectionsDecoder) (system : System P M) :
    Action P → Prop
  | .tychoMessage msg =>
    CleanWrite decode system (msg.newPairs.map marketComponent) msg.removedComponents
  | .bookUpdate update =>
    let own := dropForeignComponents system.market update
    CleanWrite decode system ((own.added ++ own.updated).map marketComponent) own.removed
  | .initializeGraph _ => True
  | .process => True

private theorem directionsAt_of_lookup {market : MarketState P} {id : ComponentId}
    {found : Option StoredComponent} (known : market.components.lookup id = found) :
    market.directionsAt id = found.map StoredComponent.swapDirections := by
  rw [MarketState.directionsAt, known]

/-! ## The queue -/

/-- The pending events agree with the market. -/
structure QueueConsistent (market : MarketState P) (events : List MarketEvent)
    (permanent : ComponentId → Prop) : Prop where
  tokens : ∀ id stored, market.components.lookup id = some stored →
    2 ≤ stored.component.tokens.length
  listings : ∀ event ∈ events, ∀ id topology, event.addedComponents.lookup id = some topology →
    2 ≤ topology.tokens.length ∧ id ∉ event.removedComponents
  /-- The last event that names a component says what the market holds for it. -/
  latest : ∀ event later, event :: later <:+ events → ∀ id, (∀ next ∈ later, ¬ next.Names id) →
    (∀ topology, event.addedComponents.lookup id = some topology →
      market.directionsAt id = some topology.swapDirections) ∧
    (id ∈ event.removedComponents → market.directionsAt id = none)
  permanents : ∀ id, permanent id → ∀ event ∈ events, id ∉ event.removedComponents ∧
    ∀ topology, event.addedComponents.lookup id = some topology →
      ∃ stored, market.components.lookup id = some stored ∧
        topology.swapDirections ⊆ stored.swapDirections

/-- Events taken from the front leave the rest consistent. -/
theorem QueueConsistent.suffix {market : MarketState P} {events rest : List MarketEvent}
    {permanent : ComponentId → Prop} (queue : QueueConsistent market events permanent)
    (tail : rest <:+ events) : QueueConsistent market rest permanent where
  tokens := queue.tokens
  listings := fun event member => queue.listings event (tail.subset member)
  latest := fun event later suffix => queue.latest event later (suffix.trans tail)
  permanents := fun id sticks event member => queue.permanents id sticks event (tail.subset member)

/-! ## The graph -/

/-- The graph of a worker agrees with the market and the pending events. -/
structure GraphConsistent (system : System P M) (held : Set HeldDirection) : Prop where
  holds : LawfulGraphManager.Holds system.worker.graphManager held
  /-- The graph is right about a component that no pending event names. -/
  settled : ∀ pair : HeldDirection, (∀ event ∈ system.events, ¬ event.Names pair.1) →
    (pair ∈ held ↔ pair ∈ admittedEdges system.market system.worker.graphDrops)
  /-- The graph has no edge of a component that the market knows as one to leave out. -/
  apart : ∀ (pair : HeldDirection) stored,
    system.market.components.lookup pair.1 = some stored →
      system.worker.graphDrops stored.component = true → pair ∉ held
  /-- The graph has no edge of a permanent component that the market does not have. -/
  permanents : ∀ pair : HeldDirection, LawfulGraphManager.permanent M pair.1 →
    pair ∈ held → ∃ stored, system.market.components.lookup pair.1 = some stored ∧
      pair.2 ∈ stored.swapDirections

/-- The queue is consistent, and so is the graph once there is one. -/
def Consistent (system : System P M) : Prop :=
  QueueConsistent system.market system.events (LawfulGraphManager.permanent M) ∧
    (system.worker.initialized = true → ∃ held, GraphConsistent system held)

/-! ## Writes -/

section Write

variable {system : System P M} {after : MarketState P} {components : List ProtocolComponent}
  {removed : List ComponentId} {event : Option MarketEvent}
  {held : Set HeldDirection} (clean : CleanWrite decode system components removed)
  (announced : Announced decode system.market after components removed event)
include clean announced

/-- What a clean write leaves of a permanent component. -/
theorem CleanWrite.keeps_permanent {id : ComponentId} (sticks : LawfulGraphManager.permanent M id)
    {stored : StoredComponent} (known : system.market.components.lookup id = some stored) :
    ∃ later, after.components.lookup id = some later ∧
      stored.swapDirections ⊆ later.swapDirections := by
  obtain ⟨kept, grows⟩ := clean.permanent id sticks
  by_cases touched : ∃ component ∈ components, component.id = id
  · obtain ⟨component, member, named, found⟩ := announced.stored id kept touched
    exact ⟨_, found, grows component member named stored known⟩
  · have untouched := announced.untouched id kept fun component member named =>
      touched ⟨component, member, named⟩
    exact ⟨stored, untouched.trans known, List.Subset.refl _⟩

/-- **Queue step of a write.** -/
theorem CleanWrite.queue
    (queue : QueueConsistent system.market system.events (LawfulGraphManager.permanent M)) :
    QueueConsistent after (system.events ++ event.toList) (LawfulGraphManager.permanent M) := by
  have tokens : ∀ id stored, after.components.lookup id = some stored →
      2 ≤ stored.component.tokens.length := by
    intro id stored found
    rcases announced.origin found with before | ⟨member, _⟩
    · exact queue.tokens id stored before
    · exact clean.tokens _ member
  have listed : ∀ sent ∈ event, ∀ id topology, sent.addedComponents.lookup id = some topology →
      ∃ stored, after.components.lookup id = some stored ∧ stored.topology = topology :=
    fun sent member id topology found =>
      Option.map_eq_some_iff.mp (announced.listed sent member id topology found)
  refine ⟨tokens, fun sent member id topology found => ?_, fun sent later suffix id last => ?_,
    fun id sticks sent member => ?_⟩
  · rcases mem_append.mp member with before | new
    · exact queue.listings sent before id topology found
    · obtain ⟨stored, known, rfl⟩ := listed sent (Option.mem_toList.mp new) id topology found
      refine ⟨tokens id stored known, fun gone => ?_⟩
      rw [announced.removals sent (Option.mem_toList.mp new)] at gone
      cases known.symm.trans (announced.gone id gone)
  · have earlier : ∀ rest, sent :: rest <:+ system.events → (∀ next ∈ rest, ¬ next.Names id) →
        (∀ notice ∈ event, ¬ notice.Names id) → _ := fun rest suffix last quiet =>
      (announced.silent id quiet).symm ▸ queue.latest sent rest suffix id last
    cases new : event with
    | none =>
      rw [new, Option.toList_none, append_nil] at suffix
      exact earlier later suffix last fun notice member => by simp [new] at member
    | some notice =>
      rw [new, Option.toList_some, suffix_concat_iff] at suffix
      rcases suffix with impossible | ⟨front, shape, suffix⟩
      · cases impossible
      · cases front with
        | nil =>
          obtain ⟨rfl, rfl⟩ := List.cons.inj shape
          refine ⟨fun topology found => ?_, fun gone => ?_⟩
          · obtain ⟨stored, known, rfl⟩ := listed sent new id topology found
            exact directionsAt_of_lookup known
          · rw [announced.removals sent new] at gone
            exact directionsAt_of_lookup (announced.gone id gone)
        | cons first rest =>
          obtain ⟨rfl, rfl⟩ := List.cons.inj shape
          refine earlier rest suffix (fun next member => last next (by simp [member])) ?_
          intro other member
          obtain rfl := Option.some.inj (new.symm.trans member)
          exact last notice (by simp)
  · rcases mem_append.mp member with before | new
    · obtain ⟨kept, within⟩ := queue.permanents id sticks sent before
      refine ⟨kept, fun topology found => ?_⟩
      obtain ⟨stored, known, subset⟩ := within topology found
      obtain ⟨later, found, grows⟩ := clean.keeps_permanent announced sticks known
      exact ⟨later, found, List.Subset.trans subset grows⟩
    · have member := Option.mem_toList.mp new
      refine ⟨?_, fun topology found => ?_⟩
      · rw [announced.removals sent member]
        exact (clean.permanent id sticks).1
      · obtain ⟨stored, known, rfl⟩ := listed sent member id topology found
        exact ⟨stored, known, List.Subset.refl _⟩

/-- **Graph step of a write.** The graph stays, and what it is right about grows no larger. -/
theorem CleanWrite.graph (graph : GraphConsistent system held) :
    GraphConsistent { system with market := after, events := system.events ++ event.toList }
      held := by
  have fresh : ∀ component ∈ components, system.worker.graphDrops component = true →
      ∀ direction, (component.id, direction) ∉ held := by
    rw [← LawfulGraphManager.edgeSet_eq graph.holds]
    exact clean.apart
  have apart : ∀ (pair : HeldDirection) stored,
      after.components.lookup pair.1 = some stored →
        system.worker.graphDrops stored.component = true → pair ∉ held := by
    intro pair stored found drops
    rcases announced.origin found with before | ⟨member, named, _⟩
    · exact graph.apart pair stored before drops
    · have absent := fresh stored.component member drops pair.2
      rwa [named] at absent
  refine ⟨graph.holds, fun pair unnamed => ?_, apart, fun pair sticks member => ?_⟩
  · have before : ∀ sent ∈ system.events, ¬ sent.Names pair.1 :=
      fun sent member => unnamed sent (mem_append_left _ member)
    have same := announced.silent pair.1 fun sent member =>
      unnamed sent (mem_append_right _ (Option.mem_toList.mpr member))
    rw [graph.settled pair before]
    constructor
    · intro admitted
      obtain ⟨stored, known, keeps, listed⟩ := admitted
      have directions : after.directionsAt pair.1 = some stored.swapDirections :=
        same.trans (directionsAt_of_lookup known)
      obtain ⟨later, found, equal⟩ := Option.map_eq_some_iff.mp directions
      refine ⟨later, found, ?_, equal ▸ listed⟩
      rw [← Bool.not_eq_true]
      intro drops
      exact apart pair later found drops ((graph.settled pair before).mpr
        ⟨stored, known, keeps, listed⟩)
    · intro admitted
      obtain ⟨later, found, keeps, listed⟩ := admitted
      have directions : system.market.directionsAt pair.1 = some later.swapDirections := 
        same.symm.trans (directionsAt_of_lookup found)
      obtain ⟨stored, known, equal⟩ := Option.map_eq_some_iff.mp directions
      refine ⟨stored, known, ?_, equal ▸ listed⟩
      rw [← Bool.not_eq_true]
      intro drops
      rcases announced.origin found with before | ⟨member, named, computed⟩
      · obtain rfl := Option.some.inj (known.symm.trans before)
        rw [keeps] at drops
        cases drops
      · exact clean.relisted later.component member stored (named ▸ known) drops keeps
          (computed.symm.trans equal.symm)
  · obtain ⟨stored, known, listed⟩ := graph.permanents pair sticks member
    obtain ⟨later, found, grows⟩ := clean.keeps_permanent announced sticks known
    exact ⟨later, found, grows listed⟩

private theorem CleanWrite.consistent (consistent : Consistent system) :
    Consistent { system with market := after, events := system.events ++ event.toList } := by
  refine ⟨clean.queue announced consistent.1, fun initialized => ?_⟩
  obtain ⟨held, graph⟩ := consistent.2 initialized
  exact ⟨held, clean.graph announced graph⟩

end Write

/-! ## The worker -/

section Steps

variable {system : System P M} {held : Set HeldDirection}

private theorem holdHistory_admitted {market : MarketState P} {permanent : ComponentId → Prop}
    (drop : ProtocolComponent → Bool)
    (tokens : ∀ id stored, market.components.lookup id = some stored →
      2 ≤ stored.component.tokens.length) :
    holdHistory permanent (removeComponents market market.componentTopology drop) [] =
      admittedEdges market drop := by
  ext pair
  change _ ↔ ∃ stored, _
  rw [mem_holdHistory_nil, removeComponents, lookup_filterKeys, MarketState.componentTopology,
    lookup_mapValues]
  cases known : market.components.lookup pair.1 with
  | none => simp
  | some stored =>
    have enough := tokens pair.1 stored known
    rw [keepsId_of_lookup known]
    cases drops : drop stored.component with
    | true => simp [drops]
    | false => simp [drops, StoredComponent.topology, enough]

/-- **Graph step of an initialization.** -/
theorem QueueConsistent.initializeGraph
    (queue : QueueConsistent system.market system.events (LawfulGraphManager.permanent M))
    (skipped : Nat) :
    GraphConsistent (system.step decode (.initializeGraph skipped))
      (admittedEdges system.market system.worker.graphDrops) := by
  refine ⟨?_, fun pair _ => Iff.rfl, fun pair stored known drops admitted => ?_,
    fun pair _ admitted => ?_⟩
  · rw [← holdHistory_admitted _ queue.tokens]
    exact LawfulGraphManager.holds_initializeGraph _
  · obtain ⟨other, found, keeps, _⟩ := admitted
    obtain rfl := Option.some.inj (known.symm.trans found)
    cases (show system.worker.graphDrops stored.component = true from drops).symm.trans keeps
  · obtain ⟨stored, known, _, listed⟩ := admitted
    exact ⟨stored, known, listed⟩

variable (system held) in
/-- The directions held after the next event, as the worker filters it. -/
def heldAfter (event : MarketEvent) : Set HeldDirection :=
  holdEvent (LawfulGraphManager.permanent M) held
    (filterEvent system.market event system.worker.graphDrops)

variable {event : MarketEvent} {later : List MarketEvent} {pair : HeldDirection}
  {stored : StoredComponent}

private theorem mem_heldAfter_of_not_names (unnamed : ¬ event.Names pair.1) :
    pair ∈ heldAfter system held event ↔ pair ∈ held :=
  mem_holdEvent_of_not_names fun filtered => unnamed (names_filterEvent.mp filtered).1

section

variable (known : system.market.components.lookup pair.1 = some stored)
include known

private theorem mem_heldAfter_of_dropped
    (drops : system.worker.graphDrops stored.component = true) :
    pair ∈ heldAfter system held event ↔ pair ∈ held := by
  apply mem_holdEvent_of_not_names
  rw [names_filterEvent, keepsId_of_lookup known, drops]
  simp

private theorem mem_heldAfter_of_listed {topology : ComponentTopology}
    (keeps : system.worker.graphDrops stored.component = false)
    (listed : event.addedComponents.lookup pair.1 = some topology)
    (enough : 2 ≤ topology.tokens.length) (stays : pair.1 ∉ event.removedComponents) :
    pair ∈ heldAfter system held event ↔ pair.2 ∈ topology.swapDirections ∨
      LawfulGraphManager.permanent M pair.1 ∧ pair ∈ held := by
  apply mem_holdEvent_of_listed _ enough
  · exact fun removed => stays (mem_removed_filterEvent.mp removed).1
  · rw [lookup_filterEvent, keepsId_of_lookup known, keeps, Bool.not_false, if_pos rfl, listed]

end

variable (graph : GraphConsistent system held)
  (queue : QueueConsistent system.market system.events (LawfulGraphManager.permanent M))
  (next : system.events = event :: later)
include graph queue next

/-- The last event that names a component sets it right. -/
theorem GraphConsistent.mem_heldAfter (named : event.Names pair.1)
    (last : ∀ sent ∈ later, ¬ sent.Names pair.1) :
    pair ∈ heldAfter system held event ↔
      pair ∈ admittedEdges system.market system.worker.graphDrops := by
  have here : event ∈ system.events := next ▸ mem_cons_self
  obtain ⟨listing, removal⟩ := queue.latest event later (next ▸ suffix_refl _) pair.1 last
  cases known : system.market.components.lookup pair.1 with
  | none =>
    have unknown : system.market.directionsAt pair.1 = none := directionsAt_of_lookup known
    have gone : pair.1 ∈ event.removedComponents := by
      refine named.resolve_left fun listed => ?_
      obtain ⟨topology, found⟩ := Option.isSome_iff_exists.mp listed
      cases unknown.symm.trans (listing topology found)
    refine iff_of_false (not_mem_holdEvent_of_removed
      (mem_removed_filterEvent.mpr ⟨gone, keepsId_of_unknown known⟩) fun sticks => ?_) ?_
    · exact (queue.permanents pair.1 sticks event here).1 gone
    · intro admitted
      obtain ⟨stored, found, _⟩ := admitted
      cases known.symm.trans found
  | some stored =>
    have directions : system.market.directionsAt pair.1 = some stored.swapDirections :=
      directionsAt_of_lookup known
    have listed : (event.addedComponents.lookup pair.1).isSome = true :=
      named.resolve_right fun gone => by cases directions.symm.trans (removal gone)
    obtain ⟨topology, found⟩ := Option.isSome_iff_exists.mp listed
    obtain ⟨enough, stays⟩ := queue.listings event here pair.1 topology found
    have same := Option.some.inj (directions.symm.trans (listing topology found))
    change _ ↔ ∃ other, _
    simp only [known, Option.some.injEq, exists_eq_left']
    cases drops : system.worker.graphDrops stored.component with
    | true =>
      rw [mem_heldAfter_of_dropped known drops]
      simpa using graph.apart pair stored known drops
    | false =>
      rw [mem_heldAfter_of_listed known drops found enough stays, same]
      refine ⟨fun either => ⟨rfl, ?_⟩, fun both => .inl both.2⟩
      rcases either with here | ⟨sticks, member⟩
      · exact here
      · obtain ⟨other, found, listed⟩ := graph.permanents pair sticks member
        obtain rfl := Option.some.inj (known.symm.trans found)
        exact same ▸ listed

/-- **Graph step of an event.** -/
theorem GraphConsistent.process : GraphConsistent { system with
      events := later
      worker := system.worker.processEvent system.market event } (heldAfter system held event) := by
  have here : event ∈ system.events := next ▸ mem_cons_self
  refine ⟨?_, fun pair last => ?_, fun pair stored known drops => ?_, fun pair sticks member => ?_⟩
  · rw [heldAfter, ← SolverWorker.graphEvent_eq]
    exact LawfulGraphManager.holds_handleEvent _ graph.holds
  · by_cases named : event.Names pair.1
    · exact graph.mem_heldAfter queue next named last
    · rw [mem_heldAfter_of_not_names named]
      refine graph.settled pair fun sent member => ?_
      rw [next] at member
      rcases mem_cons.mp member with rfl | member
      · exact named
      · exact last sent member
  · have same : pair ∈ heldAfter system held event ↔ pair ∈ held :=
      mem_heldAfter_of_dropped known drops
    rw [same]
    exact graph.apart pair stored known drops
  · obtain ⟨stays, within⟩ := queue.permanents pair.1 sticks event here
    cases listed : event.addedComponents.lookup pair.1 with
    | none =>
      have unnamed : ¬ event.Names pair.1 := by
        rw [MarketEvent.Names, listed]
        simpa using stays
      exact graph.permanents pair sticks ((mem_heldAfter_of_not_names unnamed).mp member)
    | some topology =>
      obtain ⟨enough, _⟩ := queue.listings event here pair.1 topology listed
      obtain ⟨stored, known, subset⟩ := within topology listed
      cases drops : system.worker.graphDrops stored.component with
      | true =>
        exact graph.permanents pair sticks ((mem_heldAfter_of_dropped known drops).mp member)
      | false =>
        rcases (mem_heldAfter_of_listed known drops listed enough stays).mp member
          with new | ⟨_, old⟩
        · exact ⟨stored, known, subset new⟩
        · exact graph.permanents pair sticks old

end Steps

/-! ## Runs -/

private theorem consistent_start (liquidityScope : LiquidityScope)
    (excludeProtocols algorithmExcludeProtocols : List String) (hasPostProcessors : Bool) :
    Consistent (System.start liquidityScope excludeProtocols algorithmExcludeProtocols
      hasPostProcessors : System P M) := by
  refine ⟨⟨fun id stored known => ?_, fun event member => ?_, fun event later suffix => ?_,
    fun id sticks event member => ?_⟩, fun initialized => ?_⟩
  · cases known
  · cases member
  · cases suffix_nil.mp suffix
  · cases member
  · cases initialized

/-- **Step.** A clean step keeps the queue and the graph consistent. -/
theorem Consistent.step {system : System P M} (consistent : Consistent system) {action : Action P}
    (clean : CleanStep decode system action) : Consistent (system.step decode action) := by
  cases action with
  | tychoMessage msg =>
    exact clean.consistent (handleTychoMessage_announced decode system.market msg) consistent
  | bookUpdate update =>
    exact clean.consistent (handleBookUpdate_announced decode system.market update) consistent
  | initializeGraph skipped =>
    exact ⟨consistent.1.suffix (drop_suffix _ _),
      fun _ => ⟨_, consistent.1.initializeGraph skipped⟩⟩
  | process =>
    change Consistent system.processNext
    unfold System.processNext
    split
    · rename_i event later initialized next
      obtain ⟨held, graph⟩ := consistent.2 initialized
      have tail : later <:+ system.events := next ▸ suffix_cons _ _
      exact ⟨consistent.1.suffix tail, fun _ => ⟨_, graph.process consistent.1 next⟩⟩
    · exact consistent

private theorem graphDrops_step (system : System P M) (action : Action P) :
    (system.step decode action).worker.graphDrops = system.worker.graphDrops := by
  cases action with
  | process =>
    change system.processNext.worker.graphDrops = _
    unfold System.processNext
    split <;> rfl
  | _ => rfl

/-- **What the graph of a worker holds.** In every run whose writes the worker can follow, the
graph never has an edge of a component of the market that is to be left out. Once every event is
processed it has exactly the directions of the components that are not, and none of an exclusive
component if the worker is for public liquidity only. -/
theorem graph_holds_admitted (liquidityScope : LiquidityScope)
    (excludeProtocols algorithmExcludeProtocols : List String) (hasPostProcessors : Bool)
    (actions : List (Action P))
    (clean : ∀ entry ∈ traceFold (System.step decode) (System.start liquidityScope excludeProtocols
      algorithmExcludeProtocols hasPostProcessors : System P M) actions,
      CleanStep decode entry.1 entry.2) :
    let final : System P M := (System.start liquidityScope excludeProtocols
      algorithmExcludeProtocols hasPostProcessors).run decode actions
    let drops := shouldDropComponent liquidityScope (excludeProtocols ++ algorithmExcludeProtocols)
    final.worker.initialized = true →
      (∀ pair ∈ GraphManager.edgeSet final.worker.graphManager, ∀ component,
        final.market.getComponent pair.1 = some component → drops component = false) ∧
      (final.events = [] →
        GraphManager.edgeSet final.worker.graphManager = admittedEdges final.market drops ∧
        (liquidityScope = .publicOnly → ∀ pair ∈ GraphManager.edgeSet final.worker.graphManager,
          ∃ component, final.market.getComponent pair.1 = some component ∧
            isExclusive component = false)) := by
  intro final drops initialized
  obtain ⟨_, consistent, same⟩ :
      _ ∧ Consistent final ∧ final.worker.graphDrops = drops :=
    (Trace.fold (System.step decode) _ actions).invariant
    (fun system : System P M => Consistent system ∧ system.worker.graphDrops = drops)
    ⟨consistent_start liquidityScope excludeProtocols algorithmExcludeProtocols hasPostProcessors,
      rfl⟩
    fun entry member kept =>
      ⟨kept.1.step (clean entry member), (graphDrops_step entry.1 entry.2).trans kept.2⟩
  obtain ⟨held, graph⟩ := consistent.2 initialized
  rw [LawfulGraphManager.edgeSet_eq graph.holds]
  refine ⟨fun pair member component found => ?_, fun processed => ?_⟩
  · obtain ⟨stored, known, rfl⟩ := Option.map_eq_some_iff.mp found
    rw [← Bool.not_eq_true, ← same]
    exact fun dropped => graph.apart pair stored known dropped member
  · have exact : held = admittedEdges final.market drops := by
      ext pair
      rw [← same]
      refine graph.settled pair fun event member => ?_
      rw [processed] at member
      cases member
    refine ⟨exact, fun isPublic pair member => ?_⟩
    rw [exact] at member
    obtain ⟨stored, known, keeps, _⟩ := member
    refine ⟨stored.component, Option.map_eq_some_iff.mpr ⟨stored, known, rfl⟩, ?_⟩
    have apart := (Bool.or_eq_false_iff.mp keeps).1
    simpa [isPublic] using apart

section Samples

def samplePool (id : ComponentId) (staticAttributes : Map String (List UInt8)) : FeedComponent :=
  ⟨id, "uniswap_v2", [⟨0, 18⟩, ⟨1, 18⟩], staticAttributes⟩

def exclusiveAttributes : Map String (List UInt8) := mapOfList [("is_exclusive", [1])]

/-- A message with new components. -/
def listing (newPairs : List FeedComponent) : Action Unit :=
  .tychoMessage { newPairs := newPairs, removedPairs := [], states := [] }

/-- A public pool is there when the worker starts; an exclusive one comes and is processed. -/
def followedRun : List (Action Unit) :=
  [listing [samplePool "x" ∅], .initializeGraph 1, listing [samplePool "y" exclusiveAttributes],
    .process]

/-- A public pool is removed and comes back as an exclusive one before the worker gets to the
removal. -/
def reusedIdRun : List (Action Unit) :=
  [listing [samplePool "x" ∅], .initializeGraph 1,
    .tychoMessage { newPairs := [], removedPairs := ["x"], states := [] },
    listing [samplePool "x" exclusiveAttributes], .process, .process]

/-- A worker for public liquidity beside an empty market. -/
def publicStart : System Unit (PetgraphStableDiGraphManager Unit) :=
  .start .publicOnly [] [] false

/-- The worker has processed every event, and its graph holds the exclusive component. -/
theorem reused_id_keeps_exclusive :
    let final := publicStart.run (fun _ => none) reusedIdRun
    final.worker.initialized = true ∧ final.events = [] ∧
      ("x", (0, 1)) ∈ GraphManager.edgeSet final.worker.graphManager ∧
      ∃ component, final.market.getComponent "x" = some component ∧
        shouldDropComponent .publicOnly [] component = true ∧ isExclusive component = true := by
  have excluded : ((publicStart.run (fun _ => none) reusedIdRun).market.getComponent "x").any
      (fun component => shouldDropComponent .publicOnly [] component && isExclusive component) =
        true := by decide +kernel
  obtain ⟨component, found, both⟩ := (Option.any_eq_true _ _).mp excluded
  refine ⟨by decide +kernel, List.isEmpty_iff.mp (by decide +kernel), ?_, component, found,
    Bool.and_eq_true_iff.mp both⟩
  change ∃ edge ∈ _, _
  decide +kernel

/-- The worker follows the other run: its graph holds the public pool and not the exclusive one. -/
theorem followed_run_exact :
    let final := publicStart.run (fun _ => none) followedRun
    final.worker.initialized = true ∧ final.events = [] ∧
      GraphManager.edgeSet final.worker.graphManager =
        admittedEdges final.market (shouldDropComponent .publicOnly []) := by
  have initialized : (publicStart.run (fun _ => none) followedRun).worker.initialized = true := by
    decide +kernel
  have processed : (publicStart.run (fun _ => none) followedRun).events = [] :=
    List.isEmpty_iff.mp (by decide +kernel)
  refine ⟨initialized, processed, ?_⟩
  refine ((graph_holds_admitted .publicOnly [] [] false followedRun ?_ initialized).2 processed).1
  have written : ∀ (system : System Unit (PetgraphStableDiGraphManager Unit)) component,
      2 ≤ component.tokens.length → system.market.components.lookup component.id = none →
      (∀ edge ∈ system.worker.graphManager.graph.edges,
        edge.weight.componentId ≠ component.id) →
      CleanWrite (fun _ => none) system [component] [] := by
    intro system component enough unknown absent
    refine ⟨?_, ?_, ?_, fun id sticks => sticks.elim⟩
    · exact forall_mem_singleton.mpr enough
    · refine forall_mem_singleton.mpr fun _ direction member => ?_
      obtain ⟨edge, inside, label⟩ := member
      exact absent edge inside (congrArg Prod.fst label)
    · refine forall_mem_singleton.mpr fun stored known => ?_
      cases unknown.symm.trans known
  refine forall_mem_cons.mpr ⟨?_, forall_mem_cons.mpr ⟨trivial,
    forall_mem_cons.mpr ⟨?_, forall_mem_cons.mpr ⟨trivial, by simp [traceFold]⟩⟩⟩⟩
  · exact written _ (marketComponent (samplePool "x" ∅)) (by decide) rfl (by decide +kernel)
  · exact written _ (marketComponent (samplePool "y" exclusiveAttributes)) (by decide)
      (by decide +kernel) (by decide +kernel)

end Samples

end Fynd
