import Fynd.Feed.ComponentFilter
import Fynd.Feed.TychoFeed
import Fynd.Graph.Sync

/-!
# A solver worker beside the feed

The feed writes the shared market and sends one event per write. The worker takes the
events in order, at its own pace, and filters each with the market as it stands at that
moment. A worker that fell too far behind loses the oldest events and builds its graph
anew. The admission of pAMMs is left aside.
-/

namespace Fynd

/-- What a worker asks of the manager of its graph. -/
class GraphManager (M : Type) where
  /-- A manager without a graph. -/
  new : M
  /-- Replaces the graph with that of a topology. -/
  initializeGraph : MarketTopology → M
  /-- Applies an event to the graph. -/
  handleEvent : M → MarketEvent → M × Except (List GraphError) Unit
  /-- The components with the directions the graph has an edge for. -/
  edgeSet : M → Set HeldDirection

/-- A manager whose edges are the directions its history leaves behind. -/
class LawfulGraphManager (M : Type) extends GraphManager M where
  /-- The components that keep every direction they ever had. -/
  permanent : ComponentId → Prop
  /-- The manager has exactly the edges of the directions held. -/
  Holds : M → Set HeldDirection → Prop
  edgeSet_eq : ∀ {manager held}, Holds manager held → edgeSet manager = held
  holds_initializeGraph : ∀ topology,
    Holds (initializeGraph topology) (holdHistory permanent topology [])
  holds_handleEvent : ∀ {manager held} event, Holds manager held →
    Holds (handleEvent manager event).1 (holdEvent permanent held event)

section Managers

variable {D : Type}

instance : LawfulGraphManager (PetgraphStableDiGraphManager D) where
  new := .new
  initializeGraph := .initializeGraph
  handleEvent := PetgraphStableDiGraphManager.handleEvent
  edgeSet := PetgraphStableDiGraphManager.edgeSet
  permanent := fun _ => False
  Holds := PetgraphStableDiGraphManager.Holds
  edgeSet_eq := And.right
  holds_initializeGraph := fun topology =>
    PetgraphStableDiGraphManager.holds_afterEvents topology []
  holds_handleEvent := fun event holds => holds.handleEvents [event]

instance [NativeWrap] : LawfulGraphManager (TopologyGraphManager D) where
  new := .new
  initializeGraph := .initializeGraph
  handleEvent := TopologyGraphManager.handleEvent
  edgeSet := TopologyGraphManager.edgeSet
  permanent := fun id => id = nativeWrapComponent
  Holds := TopologyGraphManager.Holds
  edgeSet_eq := And.right
  holds_initializeGraph := fun topology => TopologyGraphManager.holds_afterEvents topology []
  holds_handleEvent := fun event holds => holds.handleEvents [event]

end Managers

/-- A worker: its graph, and the settings of its pool that say which components it leaves out. -/
structure SolverWorker (M : Type) where
  graphManager : M
  initialized : Bool
  liquidityScope : LiquidityScope
  excludeProtocols : List String
  algorithmExcludeProtocols : List String
  hasPostProcessors : Bool

namespace SolverWorker

variable {P M : Type}

/-- The protocol systems the graph never uses. -/
def algorithmExclusions (worker : SolverWorker M) : List String :=
  worker.excludeProtocols ++ worker.algorithmExcludeProtocols

/-- What the graph leaves out. -/
def graphDrops (worker : SolverWorker M) : ProtocolComponent → Bool :=
  shouldDropComponent worker.liquidityScope worker.algorithmExclusions

/-- What the post-processors do not learn of. -/
def postProcessorDrops (worker : SolverWorker M) : ProtocolComponent → Bool :=
  shouldDropComponent .includeExclusive worker.excludeProtocols

/-- Builds the graph from the market's topology. -/
def initializeGraph [GraphManager M] (worker : SolverWorker M) (market : MarketState P) :
    SolverWorker M :=
  { worker with
    graphManager := GraphManager.initializeGraph
      (removeComponents market market.componentTopology worker.graphDrops)
    initialized := true }

/-- The event the graph gets. The post-processors' event is filtered first where they get one of
their own. -/
def graphEvent (worker : SolverWorker M) (market : MarketState P) (event : MarketEvent) :
    MarketEvent :=
  if !worker.hasPostProcessors ||
      worker.liquidityScope == .includeExclusive && worker.algorithmExcludeProtocols.isEmpty then
    filterEvent market event worker.graphDrops
  else filterEvent market (filterEvent market event worker.postProcessorDrops) worker.graphDrops

/-- Applies a market event to the graph. The errors of the graph are logged. -/
def processEvent [GraphManager M] (worker : SolverWorker M) (market : MarketState P)
    (event : MarketEvent) : SolverWorker M :=
  { worker with
    graphManager :=
      (GraphManager.handleEvent worker.graphManager (worker.graphEvent market event)).1 }

theorem graphEvent_eq (worker : SolverWorker M) (market : MarketState P) (event : MarketEvent) :
    worker.graphEvent market event = filterEvent market event worker.graphDrops := by
  unfold graphEvent
  split
  · rfl
  · apply filterEvent_filterEvent
    intro component drops
    simp only [postProcessorDrops, graphDrops, shouldDropComponent, isExcludedProtocol,
      algorithmExclusions, List.any_append, Bool.or_eq_true, Bool.and_eq_true] at drops ⊢
    rcases drops with ⟨impossible, _⟩ | excluded
    · cases impossible
    · exact .inr (.inl excluded)

end SolverWorker

/-- The market, the events sent and not processed yet, and the worker. -/
structure System (P M : Type) where
  market : MarketState P
  events : List MarketEvent
  worker : SolverWorker M

/-- A step of the feed or of the worker. A worker initializes its graph when it starts, with
every event before its subscription skipped, and again when it lagged behind. -/
inductive Action (P : Type)
  | tychoMessage (msg : Update P)
  | bookUpdate (update : BookUpdate P)
  | initializeGraph (skipped : Nat)
  | process

namespace System

variable {P M : Type} [GraphManager M] (decode : DirectionsDecoder)

/-- An empty market and a worker that has not started. -/
def start (liquidityScope : LiquidityScope)
    (excludeProtocols algorithmExcludeProtocols : List String) (hasPostProcessors : Bool) :
    System P M where
  market := .new
  events := []
  worker := ⟨GraphManager.new, false, liquidityScope, excludeProtocols, algorithmExcludeProtocols,
    hasPostProcessors⟩

/-- The worker processes the next event. One that has not started processes nothing. -/
def processNext (system : System P M) : System P M :=
  match system.worker.initialized, system.events with
  | true, event :: later =>
    { system with
      events := later
      worker := system.worker.processEvent system.market event }
  | _, _ => system

/-- One step. -/
def step (system : System P M) : Action P → System P M
  | .tychoMessage msg =>
    let (market, event) := handleTychoMessage decode system.market msg
    { system with market := market, events := system.events ++ event.toList }
  | .bookUpdate update =>
    let (market, event) := handleBookUpdate decode system.market update
    { system with market := market, events := system.events ++ [event] }
  | .initializeGraph skipped =>
    { system with
      events := system.events.drop skipped
      worker := system.worker.initializeGraph system.market }
  | .process => system.processNext

/-- The system after a run. -/
def run (system : System P M) (actions : List (Action P)) : System P M :=
  actions.foldl (step decode) system

end System

end Fynd
