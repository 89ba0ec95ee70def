import Fynd.Types.Market

/-!
# Which components a worker leaves out

Two settings of a worker pool say which components its workers must not route through:
its liquidity scope and its list of excluded protocol systems. The filter reads a
component from the market it is given; an id that market does not know is kept.
-/

namespace Fynd

variable {P : Type}

/-- Which liquidity a worker pool routes through. -/
inductive LiquidityScope
  | publicOnly
  | includeExclusive
  deriving DecidableEq, Repr

/-- Whether a component is swappable only with off-chain authorization. -/
def isExclusive (component : ProtocolComponent) : Bool :=
  (component.staticAttributes.lookup "is_exclusive").isSome

/-- An entry that ends with a colon names a family of protocol systems, any other entry one. -/
def protocolMatches (entry system : String) : Bool :=
  if entry.endsWith ":" then system.startsWith entry else system == entry

/-- Whether a component belongs to an excluded protocol system. -/
def isExcludedProtocol (excludeProtocols : List String) (component : ProtocolComponent) : Bool :=
  excludeProtocols.any fun entry => protocolMatches entry component.protocolSystem

/-- Whether a worker with this scope and exclusion list must keep a component out of its graph. -/
def shouldDropComponent (liquidityScope : LiquidityScope) (excludeProtocols : List String)
    (component : ProtocolComponent) : Bool :=
  liquidityScope == .publicOnly && isExclusive component ||
    isExcludedProtocol excludeProtocols component

section

variable (market : MarketState P)

/-- Whether a filter keeps an id: the market does not know it, or its component is not dropped. -/
def keepsId (drop : ProtocolComponent → Bool) (id : ComponentId) : Bool :=
  (market.getComponent id).all fun component => !drop component

/-- Removes from a topology every component that is dropped. -/
def removeComponents (topology : MarketTopology)
    (drop : ProtocolComponent → Bool) : MarketTopology :=
  filterKeys (keepsId market drop) topology

/-- Keeps only the ids that are not dropped. -/
def filterComponentIds (ids : List ComponentId)
    (drop : ProtocolComponent → Bool) : List ComponentId :=
  ids.filter (keepsId market drop)

/-- Removes the ids that are dropped from all three lists of an event. -/
def filterEvent (event : MarketEvent) (drop : ProtocolComponent → Bool) : MarketEvent where
  addedComponents := removeComponents market event.addedComponents drop
  removedComponents := filterComponentIds market event.removedComponents drop
  updatedComponents := filterComponentIds market event.updatedComponents drop

end

section Filter

variable {market : MarketState P} {event : MarketEvent}
  {drop : ProtocolComponent → Bool} {id : ComponentId}

theorem keepsId_of_lookup {stored : StoredComponent}
    (known : market.components.lookup id = some stored) :
    keepsId market drop id = !drop stored.component := by
  simp [keepsId, MarketState.getComponent, known]

theorem keepsId_of_unknown (unknown : market.components.lookup id = none) :
    keepsId market drop id = true := by
  simp [keepsId, MarketState.getComponent, unknown]

/-- A filtered event lists the components that are kept. -/
theorem lookup_filterEvent :
    (filterEvent market event drop).addedComponents.lookup id =
      if keepsId market drop id then event.addedComponents.lookup id else none :=
  lookup_filterKeys _ _ _

theorem mem_removed_filterEvent : id ∈ (filterEvent market event drop).removedComponents ↔
    id ∈ event.removedComponents ∧ keepsId market drop id = true :=
  List.mem_filter

/-- A filtered event names the components that are kept. -/
theorem names_filterEvent : (filterEvent market event drop).Names id ↔
    event.Names id ∧ keepsId market drop id = true := by
  rw [MarketEvent.Names, lookup_filterEvent, mem_removed_filterEvent, MarketEvent.Names]
  by_cases kept : keepsId market drop id = true <;> simp [kept]

/-- A weaker filter before does not matter. -/
theorem filterEvent_filterEvent {less : ProtocolComponent → Bool}
    (weaker : ∀ component, less component = true → drop component = true) :
    filterEvent market (filterEvent market event less) drop = filterEvent market event drop := by
  have keeps : ∀ id,
      (keepsId market drop id && keepsId market less id) = keepsId market drop id := by
    intro id
    unfold keepsId
    cases market.getComponent id with
    | none => rfl
    | some component =>
      cases dropped : less component with
      | false => simp [dropped]
      | true => simp [dropped, weaker component dropped]
  unfold filterEvent removeComponents filterComponentIds filterKeys
  simp only [List.filter_filter, keeps]

end Filter

end Fynd
