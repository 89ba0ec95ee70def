import Mathlib.Data.Finset.Basic
import Mathlib.Data.Finset.Insert
import Mathlib.Data.List.AList
import Mathlib.Data.List.Induction
import Mathlib.Data.List.Sort

/-!
# Tokens, pools and the market state

The data a solve reads. Hash maps are association lists with distinct keys; the
code never relies on their iteration order unless it sorts first. Unbounded
integers are natural numbers. An address keeps its identity and its order only.
-/

namespace Fynd

open List

/-- A hash map: one value per key. -/
abbrev Map (Key Value : Type*) := AList fun _ : Key => Value

/-- A map with the listed entries, later ones over earlier ones. -/
def mapOfList {Key Value : Type} [DecidableEq Key] (entries : List (Key × Value)) : Map Key Value :=
  entries.foldl (fun map entry => map.insert entry.1 entry.2) ∅

section Maps

variable {K V W : Type} [DecidableEq K]

/-- The entries whose key is kept. -/
def filterKeys (keep : K → Bool) (map : Map K V) : Map K V where
  entries := map.entries.filter fun entry => keep entry.1
  nodupKeys := map.nodupKeys.sublist filter_sublist

/-- The same keys with the values mapped. -/
def mapValues (change : V → W) (map : Map K V) : Map K W where
  entries := map.entries.map fun entry => ⟨entry.1, change entry.2⟩
  nodupKeys := by
    have keys := map.nodupKeys
    rw [List.NodupKeys, List.keys] at keys ⊢
    rwa [map_map]

/-- The entries whose value is kept. -/
def filterValues (keep : V → Bool) (map : Map K V) : Map K V where
  entries := map.entries.filter fun entry => keep entry.2
  nodupKeys := map.nodupKeys.sublist filter_sublist

variable {map : Map K V} {key other : K} {value : V} {entries : List (K × V)} {keep : V → Bool}

/-- A lookup finds what is entered. -/
theorem lookup_eq_some_iff :
    map.lookup key = some value ↔ ⟨key, value⟩ ∈ map.entries := by
  rw [← Option.mem_def, AList.mem_lookup_iff]

/-- An insertion decides its own key. -/
theorem lookup_insert_ite (map : Map K V) (key other : K) (value : V) :
    (map.insert key value).lookup other = if other = key then some value else map.lookup other := by
  split
  · rename_i same
    rw [same, AList.lookup_insert]
  · rename_i differs
    rw [AList.lookup_insert_ne differs]

/-- An erasure decides its own key. -/
theorem lookup_erase_ite (map : Map K V) (key other : K) :
    (map.erase key).lookup other = if other = key then none else map.lookup other := by
  split
  · rename_i same
    rw [same, AList.lookup_erase]
  · rename_i differs
    rw [AList.lookup_erase_ne differs]

/-- What an erased map holds was there, under another key. -/
theorem lookup_erase_eq_some (found : (map.erase key).lookup other = some value) :
    other ≠ key ∧ map.lookup other = some value := by
  rw [lookup_erase_ite] at found
  split at found
  · cases found
  · exact ⟨‹_›, found⟩

/-- Erasing keys in turn erases them all. -/
theorem lookup_foldl_erase (keys : List K) (map : Map K V) (key : K) :
    (keys.foldl (fun map gone => map.erase gone) map).lookup key =
      if key ∈ keys then none else map.lookup key := by
  induction keys generalizing map with
  | nil => simp
  | cons first rest ih =>
    rw [foldl_cons, ih, lookup_erase_ite]
    by_cases same : key = first <;> simp [same]

/-- Of several insertions under a key the last one counts. -/
theorem lookup_foldl_insert (entries : List (K × V)) (map : Map K V) (key : K) :
    (entries.foldl (fun map entry => map.insert entry.1 entry.2) map).lookup key =
      ((entries.filter fun entry => entry.1 = key).getLast?.map Prod.snd).or (map.lookup key) := by
  induction entries using List.reverseRecOn with
  | nil => rfl
  | append_singleton earlier last ih =>
    rw [foldl_concat, lookup_insert_ite, ih, filter_append]
    by_cases same : key = last.1
    · simp [same]
    · simp [same, Ne.symm same]

/-- A map made of a list holds entries of the list. -/
theorem mem_of_lookup_mapOfList
    (found : (mapOfList entries).lookup key = some value) : (key, value) ∈ entries := by
  rw [mapOfList, lookup_foldl_insert, AList.lookup_empty, Option.or_none,
    Option.map_eq_some_iff] at found
  obtain ⟨entry, last, rfl⟩ := found
  obtain ⟨member, same⟩ := mem_filter.mp (mem_of_mem_getLast? last)
  rw [← of_decide_eq_true same]
  exact member

/-- A list of distinct keys makes a map of just its entries. -/
theorem lookup_mapOfList (distinct : (entries.map Prod.fst).Nodup) :
    (mapOfList entries).lookup key = some value ↔ (key, value) ∈ entries := by
  refine ⟨mem_of_lookup_mapOfList, fun member => ?_⟩
  have listed : (entries.filter fun entry => entry.1 = key) ≠ [] :=
    ne_nil_of_mem (mem_filter.mpr ⟨member, by simp⟩)
  obtain ⟨inside, same⟩ := mem_filter.mp (getLast_mem listed)
  rw [mapOfList, lookup_foldl_insert, getLast?_eq_some_getLast listed,
    inj_on_of_nodup_map distinct inside member (of_decide_eq_true same)]
  rfl

/-- The entries of a map, as pairs, are what it holds. -/
theorem mem_entries_iff (map : Map K V) (key : K) (value : V) :
    (key, value) ∈ map.entries.map (fun entry => (entry.1, entry.2)) ↔
      map.lookup key = some value := by
  rw [lookup_eq_some_iff, mem_map]
  refine ⟨fun ⟨entry, member, shape⟩ => ?_, fun member => ⟨_, member, rfl⟩⟩
  obtain ⟨rfl, rfl⟩ := Prod.mk.inj shape
  exact member

/-- A map filtered by key holds what is kept. -/
theorem lookup_filterKeys (keep : K → Bool) (map : Map K V) (key : K) :
    (filterKeys keep map).lookup key = if keep key then map.lookup key else none := by
  ext value
  rw [lookup_eq_some_iff, filterKeys, mem_filter]
  by_cases kept : keep key = true <;> simp [kept, lookup_eq_some_iff]

/-- A map filtered by value holds what is kept. -/
theorem lookup_filterValues (keep : V → Bool) (map : Map K V) (key : K) :
    (filterValues keep map).lookup key = (map.lookup key).filter keep := by
  ext value
  rw [lookup_eq_some_iff, Option.filter_eq_some_iff, lookup_eq_some_iff]
  exact mem_filter

omit [DecidableEq K] in
/-- A filter changes nothing exactly if it keeps every value. -/
theorem filterValues_eq_self :
    filterValues keep map = map ↔ ∀ entry ∈ map.entries, keep entry.2 = true := by
  rw [AList.ext_iff]
  exact filter_eq_self

/-- A lookup commutes with a change of the values. -/
theorem lookup_mapValues (change : V → W) (map : Map K V) (key : K) :
    (mapValues change map).lookup key = (map.lookup key).map change := by
  ext value
  rw [lookup_eq_some_iff, Option.map_eq_some_iff]
  change _ ∈ List.map _ _ ↔ _
  rw [mem_map]
  constructor
  · intro found
    obtain ⟨⟨other, old⟩, member, same⟩ := found
    cases same
    exact ⟨old, lookup_eq_some_iff.mpr member, rfl⟩
  · intro found
    obtain ⟨old, known, rfl⟩ := found
    exact ⟨⟨key, old⟩, lookup_eq_some_iff.mp known, rfl⟩

/-- A map of the values that keys have holds them. -/
theorem lookup_mapOfList_filterMap (keys : List K) (value : K → Option V) (key : K) :
    (mapOfList (keys.filterMap fun key => (value key).map fun found => (key, found))).lookup key =
      if key ∈ keys then value key else none := by
  unfold mapOfList
  induction keys using List.reverseRecOn with
  | nil => rfl
  | append_singleton earlier last ih =>
    rw [filterMap_append, foldl_append]
    cases found : value last with
    | none =>
      simp only [filterMap_cons, filterMap_nil, found, Option.map_none, foldl_nil, ih,
        mem_append, mem_singleton]
      by_cases same : key = last
      · simp [same, found]
      · simp [same]
    | some held =>
      simp only [filterMap_cons, filterMap_nil, found, Option.map_some, foldl_cons, foldl_nil,
        lookup_insert_ite, ih, mem_append, mem_singleton]
      by_cases same : key = last
      · simp [same, found]
      · simp [same]

/-- A union prefers its first map. -/
theorem lookup_union_or (first second : Map K V) (key : K) :
    (first ∪ second).lookup key = (first.lookup key).or (second.lookup key) := by
  cases found : first.lookup key with
  | some value =>
    rw [AList.lookup_union_left (AList.lookup_isSome.mp (by simp [found])), found]
    rfl
  | none =>
    rw [AList.lookup_union_right (AList.lookup_eq_none.mp found)]
    rfl

end Maps

/-- A token address, ordered as the code sorts it. -/
abbrev Address := Nat

/-- The identifier of a component (a liquidity pool). -/
abbrev ComponentId := String

/-- The index of a token node in a graph. -/
abbrev NodeIndex := Nat

/-- A token: its address and the number of decimals its metadata reports. -/
structure Token where
  address : Address
  decimals : Nat
  deriving DecidableEq, Repr

/-- Every token is filed under its own address. -/
def KeyedTokens (tokens : Map Address Token) : Prop :=
  ∀ address token, tokens.lookup address = some token → token.address = address

theorem keyedTokens_empty : KeyedTokens ∅ := by simp [KeyedTokens]

/-- A token inserted under its address keeps the map keyed. -/
theorem KeyedTokens.insert {tokens : Map Address Token} (keyed : KeyedTokens tokens)
    (token : Token) : KeyedTokens (tokens.insert token.address token) := by
  intro address other found
  rw [lookup_insert_ite] at found
  split at found
  · rename_i here
    cases found
    exact here.symm
  · exact keyed address other found

/-- A conversion rate, in token raw units per native gas raw unit. -/
structure Price where
  numerator : Nat
  denominator : Nat
  deriving DecidableEq, Repr

/-- The routable gas token: where every pricing route starts and ends, what each pricing probe buys
with, and the routable units worth one native unit. -/
structure GasTokenConfig where
  address : Address
  probeAmount : Nat
  routablePerNativeUnit : Price
  deriving DecidableEq, Repr

namespace GasTokenConfig

/-- A price per native unit as one per routable unit. -/
def toRoutableUnits (config : GasTokenConfig) (price : Price) : Price where
  numerator := price.numerator * config.routablePerNativeUnit.denominator
  denominator := price.denominator * config.routablePerNativeUnit.numerator

end GasTokenConfig

/-- What a pool answers to one swap: the output, the gas, and the state it moves to. -/
structure GetAmountOutResult (P : Type) where
  amount : Nat
  gas : Nat
  newState : P

/-- A call into pool code either returns an answer, reports an error, or panics. -/
inductive SimOutcome (P : Type)
  | returned (result : GetAmountOutResult P)
  | failed (error : String)
  | panicked (message : String)

/-- Pool states that quote a swap: an arbitrary deterministic function of the state, the
input amount and the ordered token pair. -/
class ProtocolSim (P : Type) where
  getAmountOut : P → Nat → Token → Token → SimOutcome P

/-- The pool call every solve makes: a panic becomes an error. -/
def getAmountOutGuarded {P : Type} [ProtocolSim P] (sim : P)
    (amountIn : Nat) (tokenIn tokenOut : Token) : Except String (GetAmountOutResult P) :=
  match ProtocolSim.getAmountOut sim amountIn tokenIn tokenOut with
  | .returned result => .ok result
  | .failed error => .error error
  | .panicked message => .error ("get_amount_out panicked: " ++ message)

/-- What a pool state answers for the spot price of a pair of tokens. -/
abbrev SpotPriceFn (P Rate : Type) := P → Token → Token → Except String Rate

/-- A component as the market stores it. -/
structure ProtocolComponent where
  id : ComponentId
  protocolSystem : String
  tokens : List Address
  staticAttributes : Map String (List UInt8)
  deriving DecidableEq

/-- One swap a component offers: token in, then token out. -/
abbrev SwapDirection := Address × Address

instance : LawfulBEq SwapDirection := inferInstance

/-- A component's tokens and swap directions, as the graphs read them. -/
structure ComponentTopology where
  tokens : List Address
  swapDirections : List SwapDirection
  deriving DecidableEq, Repr

/-- A component as it is listed. -/
abbrev Listing := ComponentId × ComponentTopology

/-- A component with one of its directions. -/
abbrev HeldDirection := ComponentId × SwapDirection

/-- The topology of each component. -/
abbrev MarketTopology := Map ComponentId ComponentTopology

/-- Each pair of list elements, the earlier one first. -/
def tupleCombinations {α : Type*} : List α → List (α × α)
  | [] => []
  | first :: rest => rest.map (fun second => (first, second)) ++ tupleCombinations rest

/-- Every direction between the tokens, in sorted order. -/
def everySwapDirection (tokens : List Address) : List SwapDirection :=
  (tupleCombinations (tokens.insertionSort (· ≤ ·)).dedup).flatMap fun pair =>
    [(pair.1, pair.2), (pair.2, pair.1)]

/-- The topology of components given by their swap directions. -/
def topologyOf (components : List (ComponentId × List SwapDirection)) : MarketTopology :=
  mapOfList (components.map fun component => (component.1,
    ⟨(component.2.flatMap fun direction => [direction.1, direction.2]).dedup, component.2⟩))

/-- The attribute a component lists its swap directions under. -/
def swapDirectionsAttribute : String := "swap_directions"

/-- Reads an attribute as swap directions. -/
abbrev DirectionsDecoder := List UInt8 → Option (List SwapDirection)

/-- The swap directions a component lists, less those naming a token it does not hold.
Without the attribute, every direction between its tokens. A bad attribute gives none. -/
def swapDirections (decode : DirectionsDecoder)
    (component : ProtocolComponent) : List SwapDirection :=
  match component.staticAttributes.lookup swapDirectionsAttribute with
  | none => everySwapDirection component.tokens
  | some listed =>
    match decode listed with
    | none => []
    | some directions =>
      directions.filter fun direction =>
        direction.1 ∈ component.tokens ∧ direction.2 ∈ component.tokens

/-- A market event: the components that are new or have other swap directions, by id, the ids
that were removed, and the ids whose state alone changed. -/
structure MarketEvent where
  addedComponents : MarketTopology
  removedComponents : List ComponentId
  updatedComponents : List ComponentId

/-- Whether an event names a component as added or removed. -/
def MarketEvent.Names (event : MarketEvent) (id : ComponentId) : Prop :=
  (event.addedComponents.lookup id).isSome = true ∨ id ∈ event.removedComponents

/-- A component with the swap directions computed when it was stored. -/
structure StoredComponent where
  component : ProtocolComponent
  swapDirections : List SwapDirection
  deriving DecidableEq

/-- The topology of a stored component. -/
def StoredComponent.topology (stored : StoredComponent) : ComponentTopology where
  tokens := stored.component.tokens
  swapDirections := stored.swapDirections

/-- Names a block, or an overlay over it. -/
abbrev StateLabel := String

/-- The block of the last update. -/
structure BlockInfo where
  number : Nat
  hash : String
  timestamp : Nat
  deriving DecidableEq, Repr

/-- What the stream says of a protocol's synchronizer, with the header of its block. -/
inductive SynchronizerState
  | started
  | ready (header : BlockInfo)
  | delayed (header : BlockInfo)
  | stale (header : BlockInfo)
  | advanced (header : BlockInfo)
  | ended (reason : String)
  deriving DecidableEq, Repr

/-- The shared market: components, pool states, tokens and the gas price, the block it is at, and
the indexes that route constraints are resolved from. -/
structure MarketState (P : Type) where
  components : Map ComponentId StoredComponent
  simulationStates : Map ComponentId P
  tokens : Map Address Token
  gasPrice : Option Nat
  label : StateLabel := ""
  protocolSyncStatus : Map String SynchronizerState := ∅
  lastUpdated : Option BlockInfo := none
  unsyncedProtocols : Finset String := ∅
  unsyncedPools : Finset ComponentId := ∅
  componentsByProtocol : Map String (Finset ComponentId) := ∅
  constraintGeneration : UInt64 := 0

/-- A market as a solve may read it: the base state and the pool states of an active label. -/
structure MarketView (P : Type) where
  base : MarketState P
  overlay : Option (StateLabel × Map ComponentId P)

/-- Adds a component to the index entry of its protocol system. -/
def indexComponent (index : Map String (Finset ComponentId)) (protocolSystem : String)
    (id : ComponentId) : Map String (Finset ComponentId) :=
  index.insert protocolSystem (insert id ((index.lookup protocolSystem).getD ∅))

/-- Groups component ids by their protocol system. -/
def indexByProtocol (components : Map ComponentId StoredComponent) :
    Map String (Finset ComponentId) :=
  components.entries.foldl (fun index entry =>
    indexComponent index entry.2.component.protocolSystem entry.1) ∅

namespace MarketState

variable {P : Type}

def getComponent (market : MarketState P) (id : ComponentId) : Option ProtocolComponent :=
  (market.components.lookup id).map StoredComponent.component

def getSimulationState (market : MarketState P) (id : ComponentId) : Option P :=
  market.simulationStates.lookup id

def getToken (market : MarketState P) (address : Address) : Option Token :=
  market.tokens.lookup address

/-- Drops every entry whose key is not listed. -/
def restrictMap {Key Value : Type} [DecidableEq Key] (keys : List Key)
    (map : Map Key Value) : Map Key Value :=
  keys.foldl (fun kept key =>
    match map.lookup key with
    | none => kept
    | some value => kept.insert key value) ∅

/-- A restricted map holds what it is restricted to. -/
theorem lookup_restrictMap {Key Value : Type} [DecidableEq Key] (keys : List Key)
    (map : Map Key Value) (key : Key) :
    (restrictMap keys map).lookup key = if key ∈ keys then map.lookup key else none := by
  unfold restrictMap
  induction keys using List.reverseRecOn with
  | nil => rfl
  | append_singleton earlier last ih =>
    rw [foldl_concat]
    cases found : map.lookup last with
    | none =>
      dsimp only
      rw [ih]
      by_cases same : key = last
      · subst same
        simp [found]
      · simp [same]
    | some value =>
      dsimp only
      rw [lookup_insert_ite, ih]
      by_cases same : key = last
      · subst same
        simp [found]
      · simp [same]

/-- Keys that are not held do not matter. -/
theorem restrictMap_append {Key Value : Type} [DecidableEq Key] {later : List Key}
    {map : Map Key Value} (unheld : ∀ key ∈ later, map.lookup key = none) (keys : List Key) :
    restrictMap (keys ++ later) map = restrictMap keys map := by
  unfold restrictMap
  rw [foldl_append]
  generalize List.foldl _ _ keys = kept
  induction later generalizing kept with
  | nil => rfl
  | cons key rest ih =>
    obtain ⟨here, others⟩ := forall_mem_cons.mp unheld
    rw [foldl_cons, here]
    exact ih others kept

/-- The part of the market a set of components needs: the components, their pool states and
the tokens they hold, with the block and the unsynced pools. A listed id without a component or
without a state is skipped. -/
def extractSubset (market : MarketState P) (componentIds : List ComponentId) : MarketState P :=
  let components := restrictMap componentIds market.components
  { components := components
    simulationStates := restrictMap componentIds market.simulationStates
    tokens := restrictMap (components.entries.flatMap fun entry => entry.2.component.tokens)
      market.tokens
    gasPrice := market.gasPrice
    label := market.label
    lastUpdated := market.lastUpdated
    unsyncedProtocols := market.unsyncedProtocols
    unsyncedPools := market.unsyncedPools
    componentsByProtocol := indexByProtocol components
    constraintGeneration := market.constraintGeneration }

/-- The subset with the pool states of an active overlay laid over the subset's own. -/
def extractSubsetWithOverlay (market : MarketState P)
    (overlay : Option (StateLabel × Map ComponentId P)) (componentIds : List ComponentId) :
    MarketState P :=
  let subset := market.extractSubset componentIds
  match overlay with
  | none => subset
  | some (label, states) =>
    { subset with
      label := label
      simulationStates := states.entries.foldl (fun kept entry =>
        if (kept.lookup entry.1).isSome then kept.insert entry.1 entry.2 else kept)
        subset.simulationStates }

end MarketState

namespace MarketView

variable {P : Type}

def getToken (view : MarketView P) (address : Address) : Option Token :=
  view.base.getToken address

def getComponent (view : MarketView P) (id : ComponentId) : Option ProtocolComponent :=
  view.base.getComponent id

/-- The state of a pool, that of the overlay first. -/
def getSimulationState (view : MarketView P) (id : ComponentId) : Option P :=
  (view.overlay.bind fun overlay => overlay.2.lookup id).or (view.base.getSimulationState id)

end MarketView

end Fynd
