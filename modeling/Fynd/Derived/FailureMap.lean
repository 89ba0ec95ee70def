import Fynd.Derived.Manager

/-!
# Spot prices and their failures

The store keeps the spot prices and the directions that failed. A round drops the failures of
components that are gone and of directions no longer listed, computes the prices, and merges the
failures of the computation, whose keys it reads back from their texts.
-/

namespace Fynd

open Foundation List

variable {P Rate : Type}

/-! ## Keys as texts -/

/-- How addresses are written and read. -/
structure AddressText where
  display : Address → String
  parse : String → Option Address
  parse_display : ∀ address, parse (display address) = some address
  no_slash : ∀ address, '/' ∉ (display address).toList

/-- What stands before and after the last slash. -/
def rsplitSlash (text : List Char) : Option (List Char × List Char) :=
  match text.reverse.dropWhile (· ≠ '/') with
  | [] => none
  | _ :: front => some (front.reverse, (text.reverse.takeWhile (· ≠ '/')).reverse)

private theorem rsplitSlash_append (front : List Char) {back : List Char} (plain : '/' ∉ back) :
    rsplitSlash (front ++ '/' :: back) = some (front, back) := by
  have all : ∀ letter ∈ back.reverse, decide (letter ≠ '/') = true := by
    intro letter member
    rw [decide_eq_true_eq]
    rintro rfl
    exact plain (mem_reverse.mp member)
  have turned : (front ++ '/' :: back).reverse = back.reverse ++ '/' :: front.reverse := by simp
  rw [rsplitSlash, turned, dropWhile_append_of_pos all, takeWhile_append_of_pos all]
  simp

/-- Reads the key of a failed item back. -/
def parsePairKey (text : AddressText) (key : String) : Option SpotPriceKey := do
  let (front, tokenOut) ← rsplitSlash key.toList
  let (id, tokenIn) ← rsplitSlash front
  let tokenIn ← text.parse (String.ofList tokenIn)
  let tokenOut ← text.parse (String.ofList tokenOut)
  return (String.ofList id, (tokenIn, tokenOut))

private theorem parsePairKey_failedKey (text : AddressText) (id : ComponentId)
    (tokenIn tokenOut : Address) :
    parsePairKey text (failedKey text.display id tokenIn tokenOut) =
      some (id, (tokenIn, tokenOut)) := by
  have letters : (failedKey text.display id tokenIn tokenOut).toList =
      (id.toList ++ '/' :: (text.display tokenIn).toList) ++ '/' ::
        (text.display tokenOut).toList := by
    simp [failedKey, String.toList_append]
  rw [parsePairKey, letters, rsplitSlash_append _ (text.no_slash tokenOut)]
  simp only [Option.bind_eq_bind, Option.bind_some, rsplitSlash_append _ (text.no_slash tokenIn),
    String.ofList_toList, text.parse_display, Option.pure_def]

/-! ## The store -/

/-- The spot prices with the block they were stored for, and the directions that failed, with the
block and the reason. -/
structure SpotPriceStore (Rate : Type) where
  prices : Option (Map SpotPriceKey Rate × Nat)
  failed : Map SpotPriceKey (Nat × FailedItemError)

namespace SpotPriceStore

/-- A store with nothing in it. -/
def new : SpotPriceStore Rate := ⟨none, ∅⟩

/-- The stored price of a direction. -/
def price (store : SpotPriceStore Rate) (key : SpotPriceKey) : Option Rate :=
  store.prices.bind fun stored => stored.1.lookup key

/-- Drops the failures of removed components. -/
def dropFailuresOfRemoved (store : SpotPriceStore Rate) (removed : List ComponentId) :
    SpotPriceStore Rate :=
  if removed = [] then store
  else { store with failed := filterKeys (fun key => key.1 ∉ removed) store.failed }

/-- Drops the failures of directions that an added component no longer offers. -/
def dropFailuresOfUnlistedDirections (store : SpotPriceStore Rate)
    (added : MarketTopology) : SpotPriceStore Rate :=
  { store with failed := dropUnlistedDirections store.failed added }

/-- The failed directions of failed items. -/
def failuresOf (text : AddressText) (items : List FailedItem) :
    List (SpotPriceKey × FailedItemError) :=
  items.filterMap fun item => (parsePairKey text item.key).map fun key => (key, item.error)

/-- Stores spot prices and merges the failures of the run into those stored. -/
def setSpotPrices (text : AddressText) (store : SpotPriceStore Rate)
    (output : ComputationOutput (Map SpotPriceKey Rate)) (block : Nat) : SpotPriceStore Rate where
  prices := some (output.data, block)
  failed :=
    mapOfList ((failuresOf text output.failedItems).map fun failure =>
      (failure.1, (block, failure.2))) ∪
      filterKeys (fun key => (output.data.lookup key).isNone) store.failed

/-- What a round drops before it computes. -/
def prepare (store : SpotPriceStore Rate) (changed : ChangedComponents) : SpotPriceStore Rate :=
  if changed.removed ≠ [] ∨ changed.added.entries ≠ [] then
    (store.dropFailuresOfRemoved changed.removed).dropFailuresOfUnlistedDirections changed.added
  else store

end SpotPriceStore

section Round

variable (text : AddressText) (spotPrice : SpotPriceFn P Rate)

/-- The spot price part of a round for a block. -/
def spotPriceRoundAt (market : MarketState P) (block : Nat) (store : SpotPriceStore Rate)
    (changed : ChangedComponents) : SpotPriceStore Rate :=
  let prepared := store.prepare changed
  prepared.setSpotPrices text
    (computeSpotPrices spotPrice text.display market (prepared.prices.map Prod.fst) changed) block

/-- The spot price part of a round over a market. Without a block nothing is done. -/
def spotPriceRound (market : MarketState P) (store : SpotPriceStore Rate)
    (changed : ChangedComponents) : SpotPriceStore Rate :=
  market.lastUpdated.elim store fun info =>
    spotPriceRoundAt text spotPrice market info.number store changed

end Round

/-! ## The failures of a computation -/

section Failures

variable {text : AddressText} {spotPrice : SpotPriceFn P Rate} {market : MarketState P}

variable (spotPrice market) in
/-- Why a direction has no price, if it has none. -/
def directionError (key : SpotPriceKey) : Option FailedItemError :=
  match market.getSimulationState key.1 with
  | none => some .missingSimulationState
  | some sim =>
    match market.getToken key.2.1, market.getToken key.2.2 with
    | some tokenIn, some tokenOut =>
      match spotPrice sim tokenIn tokenOut with
      | .ok _ => none
      | .error message => some (.simulationFailed message)
    | _, _ => some .missingTokenMetadata

theorem directionError_eq_none_iff (key : SpotPriceKey) :
    directionError spotPrice market key = none ↔
      (quotedPrice spotPrice market key).isSome = true := by
  unfold directionError quotedPrice
  cases market.getSimulationState key.1 with
  | none => simp
  | some sim =>
    cases market.getToken key.2.1 with
    | none => simp
    | some tokenIn =>
      cases market.getToken key.2.2 with
      | none => simp
      | some tokenOut =>
        simp only [Option.bind_some]
        cases spotPrice sim tokenIn tokenOut <;> simp [Except.toOption]

variable (spotPrice market) in
/-- A direction with the reason it failed, if it did. -/
def directionFailure (key : SpotPriceKey) : Option (SpotPriceKey × FailedItemError) :=
  (directionError spotPrice market key).map fun error => (key, error)

/-- The directions of a component that a round prices. -/
def keysToPrice (market : MarketState P) (changed : ChangedComponents)
    (id : ComponentId) : List SpotPriceKey :=
  ((directionsToPrice market changed id).getD []).map fun direction => (id, direction)

open SpotPriceStore

private theorem failuresOf_append (items more : List FailedItem) :
    failuresOf text (items ++ more) = failuresOf text items ++ failuresOf text more :=
  filterMap_append

private theorem failuresOf_failedKey (id : ComponentId) (direction : SwapDirection)
    (error : FailedItemError) :
    failuresOf text [⟨failedKey text.display id direction.1 direction.2, error⟩] =
      [((id, direction), error)] := by
  simp [failuresOf, parsePairKey_failedKey]

section

variable {id : ComponentId} {sim : P} (keyed : KeyedTokens market.tokens)
  (state : market.getSimulationState id = some sim)
include keyed state

private theorem failuresOf_priceDirection (output : ComputationOutput (Map SpotPriceKey Rate))
    (direction : SwapDirection) : failuresOf text
        (priceDirection spotPrice text.display market id sim output direction).failedItems =
      failuresOf text output.failedItems ++
        (directionFailure spotPrice market (id, direction)).toList := by
  unfold priceDirection directionFailure directionError
  simp only [state]
  cases first : market.getToken direction.1 with
  | none => simp [failuresOf_append, failuresOf_failedKey]
  | some tokenIn =>
    cases second : market.getToken direction.2 with
    | none => simp [failuresOf_append, failuresOf_failedKey]
    | some tokenOut =>
      dsimp only
      cases spotPrice sim tokenIn tokenOut with
      | ok price => simp
      | error message =>
        dsimp only
        rw [failuresOf_append, keyed _ _ first, keyed _ _ second, failuresOf_failedKey]
        rfl

private theorem failuresOf_foldl_priceDirection (directions : List SwapDirection)
    (output : ComputationOutput (Map SpotPriceKey Rate)) : failuresOf text
        (directions.foldl (priceDirection spotPrice text.display market id sim)
          output).failedItems =
      failuresOf text output.failedItems ++
        (directions.map fun direction => (id, direction)).filterMap
          (directionFailure spotPrice market) := by
  induction directions generalizing output with
  | nil => simp
  | cons direction rest ih =>
    rw [foldl_cons, ih, failuresOf_priceDirection keyed state, append_assoc]
    cases failure : directionFailure spotPrice market (id, direction) <;> simp [failure]

end

private theorem failuresOf_stateless {id : ComponentId}
    (stateless : market.getSimulationState id = none) (directions : List SwapDirection) :
    failuresOf text (directions.map fun direction =>
        ⟨failedKey text.display id direction.1 direction.2, .missingSimulationState⟩) =
      (directions.map fun direction => (id, direction)).filterMap
        (directionFailure spotPrice market) := by
  unfold failuresOf
  rw [filterMap_map, filterMap_map]
  apply filterMap_congr
  intro direction _
  simp [parsePairKey_failedKey, directionFailure, directionError, stateless]

private theorem failuresOf_priceComponent (keyed : KeyedTokens market.tokens)
    (changed : ChangedComponents) (id : ComponentId)
    (output : ComputationOutput (Map SpotPriceKey Rate)) :
    failuresOf text
        (priceComponent spotPrice text.display market changed output id).failedItems =
      failuresOf text output.failedItems ++
        (keysToPrice market changed id).filterMap (directionFailure spotPrice market) := by
  unfold priceComponent keysToPrice
  cases directionsToPrice market changed id with
  | none => simp
  | some directions =>
    cases state : market.getSimulationState id with
    | none => exact (failuresOf_append _ _).trans (by rw [failuresOf_stateless state]; rfl)
    | some sim => exact failuresOf_foldl_priceDirection keyed state directions output

/-- The failures of a round are those of the directions it prices. -/
theorem failuresOf_computeSpotPrices (keyed : KeyedTokens market.tokens)
    (stored : Option (Map SpotPriceKey Rate)) (changed : ChangedComponents) :
    failuresOf text
        (computeSpotPrices spotPrice text.display market stored changed).failedItems =
      ((changed.added.keys ++ changed.updated).flatMap (keysToPrice market changed)).filterMap
        (directionFailure spotPrice market) := by
  suffices collected : ∀ (ids : List ComponentId)
      (output : ComputationOutput (Map SpotPriceKey Rate)), failuresOf text
      (ids.foldl (priceComponent spotPrice text.display market changed) output).failedItems =
        failuresOf text output.failedItems ++
          (ids.flatMap (keysToPrice market changed)).filterMap
            (directionFailure spotPrice market) from
    collected _ _
  intro ids
  induction ids with
  | nil => simp
  | cons id rest ih =>
    intro output
    rw [foldl_cons, ih, failuresOf_priceComponent keyed, flatMap_cons,
      filterMap_append, append_assoc]

end Failures

/-! ## What a round leaves of a direction -/

section Entries

variable {text : AddressText} {spotPrice : SpotPriceFn P Rate} {market : MarketState P}
  {changed : ChangedComponents} {store : SpotPriceStore Rate} {key : SpotPriceKey}

variable (market changed key) in
/-- A round prices a direction. -/
def Attempted : Prop :=
  key.1 ∈ changed.added.keys ++ changed.updated ∧
    ∃ directions, directionsToPrice market changed key.1 = some directions ∧ key.2 ∈ directions

/-- A round forgets a direction: its component is removed, or added without it. -/
def Forgotten (changed : ChangedComponents) (key : SpotPriceKey) : Prop :=
  key.1 ∈ changed.removed ∨
    ∃ topology, changed.added.lookup key.1 = some topology ∧ key.2 ∉ topology.swapDirections

private theorem mem_flatMap_keysToPrice :
    key ∈ (changed.added.keys ++ changed.updated).flatMap (keysToPrice market changed) ↔
      Attempted market changed key := by
  rw [mem_flatMap]
  unfold keysToPrice Attempted
  constructor
  · rintro ⟨id, named, listed⟩
    obtain ⟨direction, member, rfl⟩ := mem_map.mp listed
    cases found : directionsToPrice market changed id with
    | none => simp [found] at member
    | some directions => exact ⟨named, directions, rfl, by simpa [found] using member⟩
  · rintro ⟨named, directions, found, member⟩
    exact ⟨key.1, named, mem_map.mpr ⟨key.2, by simpa [found] using member, rfl⟩⟩

open Classical in
private theorem lookup_dropUnlistedDirections {V : Type} (entries : Map SpotPriceKey V) :
    (dropUnlistedDirections entries changed.added).lookup key =
      if ∃ topology, changed.added.lookup key.1 = some topology ∧
        key.2 ∉ topology.swapDirections then none else entries.lookup key := by
  rw [dropUnlistedDirections, lookup_filterKeys]
  cases found : changed.added.lookup key.1 with
  | none => simp
  | some topology => by_cases listed : key.2 ∈ topology.swapDirections <;> simp [listed]

open Classical in
private theorem lookup_failed_prepare (store : SpotPriceStore Rate) :
    (store.prepare changed).failed.lookup key =
      if Forgotten changed key then none else store.failed.lookup key := by
  unfold SpotPriceStore.prepare Forgotten
  split
  · rw [SpotPriceStore.dropFailuresOfUnlistedDirections, lookup_dropUnlistedDirections,
      SpotPriceStore.dropFailuresOfRemoved]
    split
    · rename_i unlisted
      rw [if_pos (.inr unlisted)]
    · rename_i listed
      simp only [listed, or_false]
      split
      · rename_i nothing
        simp [nothing]
      · rw [lookup_filterKeys]
        by_cases gone : key.1 ∈ changed.removed <;> simp [gone]
  · rename_i nothing
    obtain ⟨removed, added⟩ := not_or.mp nothing
    rw [not_not] at removed added
    rw [if_neg]
    rintro (gone | ⟨topology, found, _⟩)
    · simp [removed] at gone
    · rw [lookup_eq_some_iff, added] at found
      cases found

private theorem prices_prepare (store : SpotPriceStore Rate) :
    (store.prepare changed).prices = store.prices := by
  unfold SpotPriceStore.prepare
  split
  · unfold SpotPriceStore.dropFailuresOfUnlistedDirections SpotPriceStore.dropFailuresOfRemoved
    split <;> rfl
  · rfl

open Classical in
/-- What a computation leaves of the price of a direction. -/
theorem lookup_computeSpotPrices (store : SpotPriceStore Rate) (display : Address → String) :
    (computeSpotPrices spotPrice display market (store.prices.map Prod.fst) changed).data.lookup
        key =
      if key.1 ∈ changed.added.keys ++ changed.updated ∧ Priced market changed key then
        quotedPrice spotPrice market key
      else if Forgotten changed key then none else store.price key := by
  rw [computeSpotPrices, lookup_foldl_priceComponent, lookup_dropUnlistedDirections,
    lookup_forgotten]
  have stored : ((store.prices.map Prod.fst).getD ∅).lookup key = store.price key := by
    unfold SpotPriceStore.price
    cases store.prices <;> rfl
  unfold Forgotten
  rw [stored]
  split
  · rfl
  · by_cases gone : key.1 ∈ changed.removed <;>
      by_cases unlisted : ∃ topology, changed.added.lookup key.1 = some topology ∧
        key.2 ∉ topology.swapDirections <;> simp [gone, unlisted]

open Classical in
/-- What storing the output of a computation leaves of the failure of a direction. -/
theorem lookup_failed_setSpotPrices (keyed : KeyedTokens market.tokens)
    (store : SpotPriceStore Rate) (stored : Option (Map SpotPriceKey Rate)) (block : Nat) :
    let output := computeSpotPrices spotPrice text.display market stored changed
    (store.setSpotPrices text output block).failed.lookup key =
      (if Attempted market changed key then
        (directionError spotPrice market key).map fun error => (block, error) else none).or
        (if (output.data.lookup key).isNone then store.failed.lookup key else none) := by
  intro output
  have pairs : (SpotPriceStore.failuresOf text output.failedItems).map
      (fun failure => (failure.1, (block, failure.2))) =
        ((changed.added.keys ++ changed.updated).flatMap (keysToPrice market changed)).filterMap
          fun key => ((directionError spotPrice market key).map fun error => (block, error)).map
            fun found => (key, found) := by
    rw [failuresOf_computeSpotPrices keyed, map_filterMap]
    apply filterMap_congr
    intro key _
    simp only [directionFailure, Option.map_map]
    rfl
  rw [SpotPriceStore.setSpotPrices, lookup_union_or, pairs, lookup_mapOfList_filterMap,
    lookup_filterKeys]
  simp only [mem_flatMap_keysToPrice]

/-- What the store holds of a direction: its price and its failure. -/
def SpotPriceStore.entry (store : SpotPriceStore Rate) (key : SpotPriceKey) :
    Option Rate × Option (Nat × FailedItemError) :=
  (store.price key, store.failed.lookup key)

variable (spotPrice market) in
/-- What a round for a block finds of a direction: a price or a failure. -/
def settledEntry
    (block : Nat) (key : SpotPriceKey) : Option Rate × Option (Nat × FailedItemError) :=
  (quotedPrice spotPrice market key,
    (directionError spotPrice market key).map fun error => (block, error))

section AtBlock

variable (keyed : KeyedTokens market.tokens) {block : Nat}

include keyed

open Classical in
private theorem entry_spotPriceRoundAt :
    (spotPriceRoundAt text spotPrice market block store changed).entry key =
      let price := if key.1 ∈ changed.added.keys ++ changed.updated ∧ Priced market changed key then
          quotedPrice spotPrice market key
        else if Forgotten changed key then none else store.price key
      (price, (if Attempted market changed key then
          (directionError spotPrice market key).map fun error => (block, error) else none).or
        (if price.isNone then if Forgotten changed key then none else store.failed.lookup key
          else none)) := by
  have price := @lookup_computeSpotPrices _ _ spotPrice market changed key store text.display
  unfold SpotPriceStore.entry spotPriceRoundAt
  dsimp only
  rw [prices_prepare, lookup_failed_setSpotPrices keyed, lookup_failed_prepare, price]
  exact congrArg (fun found => (found, _)) price

/-- A direction that is priced gets a new entry. -/
theorem entry_of_attempted (attempted : Attempted market changed key) :
    (spotPriceRoundAt text spotPrice market block store changed).entry key =
      settledEntry spotPrice market block key := by
  obtain ⟨named, directions, found, member⟩ := attempted
  rw [entry_spotPriceRoundAt keyed, if_pos ⟨named, directions, found, .inl member⟩,
    if_pos ⟨named, directions, found, member⟩]
  unfold settledEntry
  dsimp only
  congr 1
  cases error : directionError spotPrice market key with
  | some reason => rfl
  | none =>
    have priced := (directionError_eq_none_iff key).mp error
    simp [Option.isSome_iff_ne_none.mp priced]

/-- A direction that is forgotten and not priced has no entry. -/
theorem entry_of_forgotten (forgotten : Forgotten changed key)
    (idle : ¬Attempted market changed key) :
    (spotPriceRoundAt text spotPrice market block store changed).entry key = (none, none) := by
  rw [entry_spotPriceRoundAt keyed]
  simp only [if_neg idle, if_pos forgotten, Option.none_or]
  by_cases asked : key.1 ∈ changed.added.keys ++ changed.updated ∧ Priced market changed key
  · -- The pool is asked for a direction it does not list only if it has no state.
    obtain ⟨directions, found, listed⟩ := asked.2
    have stateless : market.getSimulationState key.1 = none :=
      listed.resolve_left fun member => idle ⟨asked.1, directions, found, member⟩
    have none : quotedPrice spotPrice market key = none := by simp [quotedPrice, stateless]
    simp only [if_pos asked, none, Option.isNone_none, if_true]
  · simp only [if_neg asked, Option.isNone_none, if_true]

/-- A component without a state loses the prices of directions it does not list. -/
theorem entry_of_stateless (kept : ¬Forgotten changed key) (idle : ¬Attempted market changed key)
    (named : key.1 ∈ changed.added.keys ++ changed.updated) {directions : List SwapDirection}
    (found : directionsToPrice market changed key.1 = some directions)
    (stateless : market.getSimulationState key.1 = none) :
    (spotPriceRoundAt text spotPrice market block store changed).entry key =
      (none, store.failed.lookup key) := by
  have unquoted : quotedPrice spotPrice market key = none := by simp [quotedPrice, stateless]
  rw [entry_spotPriceRoundAt keyed]
  simp only [if_neg idle, if_neg kept, Option.none_or, if_pos (And.intro named
    (show Priced market changed key from ⟨directions, found, .inr stateless⟩)), unquoted,
    Option.isNone_none, if_true]

/-- A direction that no change concerns keeps its entry. -/
theorem entry_of_unasked (kept : ¬Forgotten changed key)
    (unasked : ¬(key.1 ∈ changed.added.keys ++ changed.updated ∧ Priced market changed key))
    (apart : store.price key = none ∨ store.failed.lookup key = none) :
    (spotPriceRoundAt text spotPrice market block store changed).entry key = store.entry key := by
  have idle : ¬Attempted market changed key := by
    rintro ⟨named, directions, found, member⟩
    exact unasked ⟨named, directions, found, .inl member⟩
  rw [entry_spotPriceRoundAt keyed]
  simp only [if_neg idle, if_neg kept, Option.none_or, if_neg unasked]
  unfold SpotPriceStore.entry
  cases price : store.price key with
  | none => simp
  | some rate =>
    have absent := apart.resolve_left (by simp [price])
    simp [absent]

end AtBlock

end Entries

end Fynd
