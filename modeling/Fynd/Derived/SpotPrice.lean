import Fynd.Derived.Tracker
import Fynd.Feed.TychoFeed

/-!
# Spot prices, computed for what changed

A round starts from the stored prices, forgets those of removed components and of swap
directions that are gone, and prices the components that were added or updated.
-/

namespace Fynd

open List

variable {P Rate : Type}

/-- The components a market update changed. -/
structure ChangedComponents where
  added : MarketTopology
  removed : List ComponentId
  updated : List ComponentId

/-- A component and one of its swap directions. -/
abbrev SpotPriceKey := ComponentId × SwapDirection

/-- What a computation produced, and the items it could not. -/
structure ComputationOutput (T : Type) where
  data : T
  failedItems : List FailedItem

/-- Drops the entries of the directions that an added component does not list. -/
def dropUnlistedDirections {V : Type} (entries : Map SpotPriceKey V)
    (added : MarketTopology) : Map SpotPriceKey V :=
  filterKeys (fun key => (added.lookup key.1).all fun topology =>
    topology.swapDirections.contains key.2) entries

section Computation

variable (spotPrice : SpotPriceFn P Rate) (display : Address → String)

/-- The key of a failed item. -/
def failedKey (id : ComponentId) (tokenIn tokenOut : Address) : String :=
  id ++ "/" ++ display tokenIn ++ "/" ++ display tokenOut

section

variable (market : MarketState P)

/-- Prices one direction. A direction without a price loses the price it had. -/
def priceDirection (id : ComponentId) (sim : P) (output : ComputationOutput (Map SpotPriceKey Rate))
    (direction : SwapDirection) : ComputationOutput (Map SpotPriceKey Rate) :=
  match market.getToken direction.1, market.getToken direction.2 with
  | some tokenIn, some tokenOut =>
    match spotPrice sim tokenIn tokenOut with
    | .ok price => { output with data := output.data.insert (id, direction) price }
    | .error message =>
      { data := output.data.erase (id, direction)
        failedItems := output.failedItems ++
          [⟨failedKey display id tokenIn.address tokenOut.address, .simulationFailed message⟩] }
  | _, _ =>
    { data := output.data.erase (id, direction)
      failedItems := output.failedItems ++
        [⟨failedKey display id direction.1 direction.2, .missingTokenMetadata⟩] }

/-- The directions a round prices a component in. -/
def directionsToPrice (changed : ChangedComponents)
    (id : ComponentId) : Option (List SwapDirection) :=
  match changed.added.lookup id with
  | some topology => some topology.swapDirections
  | none => market.directionsAt id

/-- Prices one component. One without a state loses all its prices. -/
def priceComponent (changed : ChangedComponents)
    (output : ComputationOutput (Map SpotPriceKey Rate)) (id : ComponentId) :
    ComputationOutput (Map SpotPriceKey Rate) :=
  match directionsToPrice market changed id, market.getSimulationState id with
  | none, _ => output
  | some directions, none =>
    { data := filterKeys (fun key => key.1 ≠ id) output.data
      failedItems := output.failedItems ++ directions.map fun direction =>
        ⟨failedKey display id direction.1 direction.2, .missingSimulationState⟩ }
  | some directions, some sim =>
    directions.foldl (priceDirection spotPrice display market id sim) output

/-- The spot prices after a round. -/
def computeSpotPrices (stored : Option (Map SpotPriceKey Rate))
    (changed : ChangedComponents) : ComputationOutput (Map SpotPriceKey Rate) :=
  let kept := changed.removed.foldl
    (fun prices id => filterKeys (fun key => key.1 ≠ id) prices) (stored.getD ∅)
  (changed.added.keys ++ changed.updated).foldl (priceComponent spotPrice display market changed)
    ⟨dropUnlistedDirections kept changed.added, []⟩

/-- The round that prices every component of a market from nothing. -/
def priceFromScratch : ComputationOutput (Map SpotPriceKey Rate) :=
  computeSpotPrices spotPrice display market none ⟨market.componentTopology, [], []⟩

end

/-! ## What a round leaves under a key -/

/-- The price of a component in a direction, as the pool answers it. -/
def quotedPrice (market : MarketState P) (key : SpotPriceKey) : Option Rate :=
  (market.getSimulationState key.1).bind fun sim =>
    (market.getToken key.2.1).bind fun tokenIn =>
      (market.getToken key.2.2).bind fun tokenOut => (spotPrice sim tokenIn tokenOut).toOption

/-- The price of a component in a direction that it lists. -/
def spotPriceOf (market : MarketState P) (key : SpotPriceKey) : Option Rate :=
  if (market.directionsAt key.1).any (key.2 ∈ ·) then quotedPrice spotPrice market key else none

variable {spotPrice display} {market : MarketState P}

variable {id : ComponentId} {sim : P} {changed : ChangedComponents} {key : SpotPriceKey}
  {output : ComputationOutput (Map SpotPriceKey Rate)}

section

variable (state : market.getSimulationState id = some sim)
include state

/-- A direction gets the price the pool answers, or none. -/
theorem data_priceDirection (direction : SwapDirection) :
    (priceDirection spotPrice display market id sim output direction).data =
      (quotedPrice spotPrice market (id, direction)).elim (output.data.erase (id, direction))
        fun price => output.data.insert (id, direction) price := by
  unfold priceDirection
  simp only [quotedPrice, state, Option.bind_some]
  cases market.getToken direction.1 with
  | none => rfl
  | some tokenIn =>
    cases market.getToken direction.2 with
    | none => rfl
    | some tokenOut =>
      simp only [Option.bind_some]
      cases spotPrice sim tokenIn tokenOut <;> rfl

private theorem lookup_priceDirection (direction : SwapDirection) :
    (priceDirection spotPrice display market id sim output direction).data.lookup key =
      if key = (id, direction) then quotedPrice spotPrice market key
      else output.data.lookup key := by
  rw [data_priceDirection state]
  cases quoted : quotedPrice spotPrice market (id, direction) with
  | none =>
    rw [Option.elim_none, lookup_erase_ite]
    split
    · rename_i here
      rw [here, quoted]
    · rfl
  | some price =>
    rw [Option.elim_some, lookup_insert_ite]
    split
    · rename_i here
      rw [here, quoted]
    · rfl

private theorem lookup_foldl_priceDirection (directions : List SwapDirection) :
    (directions.foldl (priceDirection spotPrice display market id sim) output).data.lookup key =
      if key.1 = id ∧ key.2 ∈ directions then quotedPrice spotPrice market key
      else output.data.lookup key := by
  induction directions generalizing output with
  | nil => simp
  | cons direction rest ih =>
    rw [foldl_cons, ih, lookup_priceDirection state]
    by_cases mine : key.1 = id <;> by_cases here : key.2 = direction <;>
      by_cases later : key.2 ∈ rest <;> simp [mine, here, later, Prod.ext_iff]

end

variable (market changed key) in
/-- A component that is priced gets the price of each of its directions, and none without a
state. -/
def Priced : Prop :=
  ∃ directions, directionsToPrice market changed key.1 = some directions ∧
    (key.2 ∈ directions ∨ market.getSimulationState key.1 = none)

open Classical in
private theorem lookup_priceComponent (changed : ChangedComponents) (id : ComponentId) :
    (priceComponent spotPrice display market changed output id).data.lookup key =
      if key.1 = id ∧ Priced market changed key then quotedPrice spotPrice market key
      else output.data.lookup key := by
  unfold priceComponent
  cases directions : directionsToPrice market changed id with
  | none =>
    rw [if_neg]
    rintro ⟨rfl, _, listed, _⟩
    rw [directions] at listed
    cases listed
  | some listed =>
    have priced (mine : key.1 = id) : Priced market changed key ↔
        key.2 ∈ listed ∨ market.getSimulationState id = none := by
      simp only [Priced, mine, directions, Option.some.injEq, exists_eq_left']
    cases state : market.getSimulationState id with
    | none =>
      dsimp only
      rw [lookup_filterKeys]
      by_cases mine : key.1 = id
      · have none : quotedPrice spotPrice market key = none := by
          simp [quotedPrice, mine, state]
        simp [mine, priced mine, state, none]
      · simp [mine]
    | some sim =>
      dsimp only
      rw [lookup_foldl_priceDirection state]
      by_cases mine : key.1 = id
      · simp [mine, priced mine, state]
      · simp [mine]

open Classical in
theorem lookup_foldl_priceComponent (changed : ChangedComponents) (ids : List ComponentId) :
    (ids.foldl (priceComponent spotPrice display market changed) output).data.lookup key =
      if key.1 ∈ ids ∧ Priced market changed key then quotedPrice spotPrice market key
      else output.data.lookup key := by
  induction ids generalizing output with
  | nil => simp
  | cons id rest ih =>
    rw [foldl_cons, ih, lookup_priceComponent]
    by_cases here : key.1 = id <;> by_cases later : key.1 ∈ rest <;>
      by_cases priced : Priced market changed key <;> simp [here, later, priced]

theorem lookup_forgotten (removed : List ComponentId) (prices : Map SpotPriceKey Rate) :
    (removed.foldl (fun prices id => filterKeys (fun key => key.1 ≠ id) prices) prices).lookup key =
      if key.1 ∈ removed then none else prices.lookup key := by
  induction removed generalizing prices with
  | nil => simp
  | cons id rest ih =>
    rw [foldl_cons, ih, lookup_filterKeys]
    by_cases here : key.1 = id <;> by_cases later : key.1 ∈ rest <;> simp [here, later]

/-! ## When a round is as good as pricing everything -/

variable (spotPrice market) in
/-- Prices that differ from those of a market only where a change names the component. -/
structure Outdated (stored : Map SpotPriceKey Rate) (changed : ChangedComponents) : Prop where
  unnamed : ∀ key, (changed.added.lookup key.1) = none → key.1 ∉ changed.removed →
    key.1 ∉ changed.updated → stored.lookup key = spotPriceOf spotPrice market key
  added : ∀ id topology, changed.added.lookup id = some topology →
    market.directionsAt id = some topology.swapDirections
  removed : ∀ id ∈ changed.removed, market.directionsAt id = none
  listed : ∀ key, key.1 ∉ changed.removed → changed.added.lookup key.1 = none →
    (stored.lookup key).isSome = true → (market.directionsAt key.1).any (key.2 ∈ ·) = true

private theorem Outdated.directionsToPrice_eq {stored : Map SpotPriceKey Rate}
    (outdated : Outdated spotPrice market stored changed) (id : ComponentId) :
    directionsToPrice market changed id = market.directionsAt id := by
  unfold directionsToPrice
  split
  · rename_i topology found
    exact (outdated.added id topology found).symm
  · rfl

/-- What is left of the stored prices in a direction that the market does not list. -/
theorem Outdated.lookup_unlisted {stored : Map SpotPriceKey Rate}
    (outdated : Outdated spotPrice market stored changed) {key : SpotPriceKey}
    (unlisted : (market.directionsAt key.1).any (key.2 ∈ ·) = false) :
    (dropUnlistedDirections (changed.removed.foldl
      (fun prices id => filterKeys (fun key => key.1 ≠ id) prices) stored)
        changed.added).lookup key = none := by
  rw [dropUnlistedDirections, lookup_filterKeys, lookup_forgotten]
  cases found : changed.added.lookup key.1 with
  | some topology =>
    rw [outdated.added key.1 topology found] at unlisted
    rw [Option.any_some] at unlisted
    rw [Option.all_some, contains_eq_mem, unlisted]
    rfl
  | none =>
    by_cases gone : key.1 ∈ changed.removed
    · simp [gone]
    · have absent : stored.lookup key = none := by
        by_contra present
        have listed := outdated.listed key gone found (Option.isSome_iff_ne_none.mpr present)
        rw [unlisted] at listed
        cases listed
      simp [gone, absent]

open Classical in
/-- **A round over the changed components prices the whole market.** -/
theorem Outdated.lookup_computeSpotPrices {stored : Option (Map SpotPriceKey Rate)}
    (outdated : Outdated spotPrice market (stored.getD ∅) changed) (key : SpotPriceKey) :
    (computeSpotPrices spotPrice display market stored changed).data.lookup key =
      spotPriceOf spotPrice market key := by
  rw [computeSpotPrices, lookup_foldl_priceComponent]
  have priced : Priced market changed key ↔ ∃ directions,
      market.directionsAt key.1 = some directions ∧
        (key.2 ∈ directions ∨ market.getSimulationState key.1 = none) := by
    rw [Priced, outdated.directionsToPrice_eq]
  unfold spotPriceOf
  cases lists : (market.directionsAt key.1).any (key.2 ∈ ·) with
  | false =>
    -- The pool may be asked only if it has no state, and then there is no price.
    rw [outdated.lookup_unlisted lists]
    split
    · rename_i asked
      obtain ⟨directions, held, stateless⟩ := priced.mp asked.2
      rw [held, Option.any_some, decide_eq_false_iff_not] at lists
      have none := stateless.resolve_left lists
      simp [quotedPrice, none]
    · rfl
  | true =>
    obtain ⟨directions, held, listed⟩ := (Option.any_eq_true _ _).mp lists
    have asked : Priced market changed key := priced.mpr
      ⟨directions, held, .inl (of_decide_eq_true listed)⟩
    have kept : key.1 ∉ changed.removed := by
      intro gone
      rw [outdated.removed key.1 gone] at held
      cases held
    rw [if_pos rfl]
    split
    · rfl
    · rename_i unasked
      have unnamed : key.1 ∉ changed.added.keys ++ changed.updated := fun named =>
        unasked ⟨named, asked⟩
      obtain ⟨notAdded, notUpdated⟩ := not_or.mp (mt mem_append.mpr unnamed)
      have absent : changed.added.lookup key.1 = none :=
        AList.lookup_eq_none.mpr fun present => notAdded (AList.mem_keys.mp present)
      rw [dropUnlistedDirections, lookup_filterKeys, lookup_forgotten, absent, if_neg kept,
        outdated.unnamed key absent kept notUpdated, spotPriceOf, if_pos lists]
      rfl

/-- Pricing from scratch finds the spot price of every direction. -/
theorem lookup_priceFromScratch (key : SpotPriceKey) :
    (priceFromScratch spotPrice display market).data.lookup key =
      spotPriceOf spotPrice market key := by
  apply Outdated.lookup_computeSpotPrices
  refine ⟨fun key absent _ _ => ?_, fun id topology found => ?_, by simp, by simp⟩
  · dsimp only at absent
    rw [spotPriceOf, ← MarketState.directionsAt_eq, absent]
    rfl
  · dsimp only at found
    rw [← MarketState.directionsAt_eq, found]
    rfl

end Computation

end Fynd
