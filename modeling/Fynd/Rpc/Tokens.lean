import Fynd.Types.Market
import Mathlib.Data.Rat.Defs

/-!
# The ranked list of graph tokens

The tokens of the graph, by what can be traded of them. A token's liquidity is the sum of the depths
in which it is the input, in units of the routable gas token.
-/

namespace Fynd

/-- The doubles that liquidity is counted in. -/
class LiquidityDouble (F : Type) where
  ofNat : Nat → Option F
  zero : F
  negInfinity : F
  add : F → F → F
  mul : F → F → F
  div : F → F → F
  isFinite : F → Bool
  isPositive : F → Bool
  totalCmp : F → F → Ordering

/-- Exact fractions, none of which is below zero here. -/
instance : LiquidityDouble ℚ where
  ofNat := fun value => some value
  zero := 0
  negInfinity := -1
  add := (· + ·)
  mul := (· * ·)
  div := (· / ·)
  isFinite := fun _ => true
  isPositive := fun value => 0 < value
  totalCmp := fun left right => if left < right then .lt else if left = right then .eq else .gt

/-- A token with what is indexed of it. -/
structure IndexedToken where
  symbol : String
  decimals : Nat
  tax : Nat
  gas : List (Option Nat)
  quality : Nat
  deriving DecidableEq, Repr

/-- A token of the routing graph with its ranking signals. -/
structure GraphTokenEntry (F : Type) where
  address : Address
  token : IndexedToken
  componentCount : Nat
  liquidity : Option F
  deriving DecidableEq, Repr

/-- A component with a swap direction. -/
abbrev ComponentDepthKey := ComponentId × Address × Address

/-- What a ranked list is built from. -/
structure RankingInput where
  topology : MarketTopology
  tokens : Map Address IndexedToken
  depths : Option (Map ComponentDepthKey Nat)
  prices : Map Address Price

section Ranking

variable {F : Type} [LiquidityDouble F]

open LiquidityDouble

/-- The gas-token units per unit of a token, if that is finite and above zero. -/
def gasUnitsPerTokenUnit (price : Price) : Option F := do
  let denominator ← ofNat price.denominator
  let numerator ← ofNat price.numerator
  let factor : F := div denominator numerator
  if isFinite factor && isPositive factor then some factor else none

/-- How many components list each token. -/
def componentCounts (topology : MarketTopology) : Map Address Nat :=
  topology.entries.foldl (fun counts component =>
    component.2.tokens.foldl (fun counts address =>
      counts.insert address ((counts.lookup address).getD 0 + 1)) counts) ∅

/-- What one depth adds to the liquidity of its input token. -/
def depthLiquidity (config : GasTokenConfig) (prices : Map Address Price) (tokenIn : Address)
    (depth : Nat) : Option F := do
  let price ← prices.lookup tokenIn
  let gasPerTokenUnit ← gasUnitsPerTokenUnit (config.toRoutableUnits price)
  let depth ← ofNat depth
  let gasUnits : F := mul depth gasPerTokenUnit
  if isFinite gasUnits then some gasUnits else none

/-- The liquidity of each counted token with a price. -/
def tokenLiquidity (config : GasTokenConfig) (counts : Map Address Nat)
    (depths : Option (Map ComponentDepthKey Nat)) (prices : Map Address Price) : Map Address F :=
  (depths.elim [] AList.entries).foldl (fun liquidity entry =>
    let tokenIn := entry.1.2.1
    if (counts.lookup tokenIn).isSome then
      (depthLiquidity config prices tokenIn entry.2).elim liquidity fun gasUnits =>
        liquidity.insert tokenIn (add ((liquidity.lookup tokenIn).getD zero) gasUnits)
    else liquidity) ∅

/-- One entry ranks no later than another: by liquidity, by the number of components, by address. -/
def ranksBefore (first second : GraphTokenEntry F) : Bool :=
  ((totalCmp (second.liquidity.getD negInfinity) (first.liquidity.getD negInfinity)).then
    ((compare second.componentCount first.componentCount).then
      (compare first.address second.address))).isLE

/-- The ranked list of the tokens that some component lists and the registry knows. -/
def buildTokenEntries (config : GasTokenConfig) (input : RankingInput) : List (GraphTokenEntry F) :=
  let counts := componentCounts input.topology
  let liquidity : Map Address F := tokenLiquidity config counts input.depths input.prices
  let entries := counts.entries.filterMap fun counted =>
    (input.tokens.lookup counted.1).map fun token =>
      ⟨counted.1, token, counted.2, liquidity.lookup counted.1⟩
  entries.insertionSort fun first second => ranksBefore first second

end Ranking

end Fynd
