import Fynd.Foundation.Fallible
import Fynd.Types.Route

/-!
# The price guard

The guard compares what a candidate pays with what external sources expect for the same
pair and amount. One source that agrees is enough. Of an order's ranked candidates those
that pass are kept in rank order. If none passes, the best one is kept, marked.
-/

namespace Fynd

open Foundation List

variable {P : Type}

/-- What a request asks of the guard: the deviations allowed, in basis points, and whether a
candidate is refused when no source can be reached or none knows the pair. -/
structure PriceGuardConfig where
  lowerToleranceBps : Nat := 300
  upperToleranceBps : Nat := 10000
  failOnProviderError : Bool := false
  failOnTokenPriceNotFound : Bool := false
  enabled : Bool := false
  deriving DecidableEq, Repr

/-- Why a source has no price. -/
inductive PriceProviderError
  | unavailable (message : String)
  | tokenNotFound (address : String)
  | priceNotFound (tokenIn tokenOut : String)
  | staleData (ageMs : Nat)
  deriving DecidableEq, Repr

/-- A source of prices: the output it expects for an amount of one token in another. Its prices
move between two checks, so it is also given the quote whose check asks. -/
abbrev PriceProvider (P : Type) :=
  OrderQuote P → Address → Address → Nat → Except PriceProviderError Nat

/-- Why a guard cannot validate. -/
inductive PriceGuardError
  | noProviders
  | emptyQuoteCandidates
  deriving DecidableEq, Repr

/-- The text of an error. -/
def PriceGuardError.message : PriceGuardError → String
  | .noProviders => "price guard is enabled but no providers are registered"
  | .emptyQuoteCandidates => "received empty candidates list"

/-- The guard, with its sources. -/
structure PriceGuard (P : Type) where
  registry : List (PriceProvider P)

namespace PriceGuard

/-- The tokens a successful quote trades, if it has a route with swaps. -/
def validatedTokenPair (quote : OrderQuote P) : Option (Address × Address) := do
  let route ← quote.route
  let tokenIn ← route.inputToken
  let tokenOut ← route.outputToken
  return (tokenIn, tokenOut)

/-- Whether a quote's output is within the tolerance of a source's. A deviation beyond 32 bits
counts as the largest of them. -/
def priceWithinTolerance (config : PriceGuardConfig) (amountOut expectedAmountOut : Nat) : Bool :=
  if expectedAmountOut = 0 then false
  else
    let deviation :=
      if expectedAmountOut ≤ amountOut then
        (amountOut - expectedAmountOut, config.upperToleranceBps)
      else (expectedAmountOut - amountOut, config.lowerToleranceBps)
    min (deviation.1 * 10000 / expectedAmountOut) (2 ^ 32 - 1) ≤ deviation.2

/-- Whether an answer is a price that a quote misses. -/
def outOfTolerance : Except PriceProviderError Nat → Bool
  | .ok _ => true
  | .error _ => false

/-- Whether an answer is an error other than an unknown pair. -/
def providerFailed : Except PriceProviderError Nat → Bool
  | .ok _ => false
  | .error (.priceNotFound _ _) => false
  | .error _ => true

section

variable (guard : PriceGuard P)

/-- Whether a source agrees with a quote. Where none answers with a price, the request decides. -/
def checkPrice (quote : OrderQuote P)
    (tokenIn tokenOut : Address) (config : PriceGuardConfig) : Bool :=
  let results := guard.registry.map fun provider => provider quote tokenIn tokenOut quote.amountIn
  if results.any fun result =>
      result.toOption.any (priceWithinTolerance config quote.amountOut) then true
  else if results.any outOfTolerance then false
  else if results.any providerFailed then !config.failOnProviderError
  else !config.failOnTokenPriceNotFound

section

variable (config : PriceGuardConfig)

/-- Whether a candidate passes. -/
def passes (candidate : OrderQuote P) : Bool :=
  (validatedTokenPair candidate).any fun pair => guard.checkPrice candidate pair.1 pair.2 config

/-- Keeps the candidates that pass, or only the best one, marked. A placeholder stays as it is. -/
def retainValid (candidates : List (OrderQuote P)) : Except PriceGuardError (List (OrderQuote P)) :=
  if candidates.head?.any fun candidate => candidate.status ≠ .success then .ok candidates
  else
    let passing := candidates.filter (guard.passes config)
    if !passing.isEmpty then .ok passing
    else
      ((candidates.filter fun candidate => !guard.passes config candidate).head?.elim
        (.error .emptyQuoteCandidates) fun rejected =>
          .ok [{ rejected with status := .priceCheckFailed }])

/-- Validates the ranked candidates of every order. -/
def validate (rankedQuotes : List (List (OrderQuote P))) :
    Except PriceGuardError (List (List (OrderQuote P))) :=
  if !config.enabled then .ok rankedQuotes
  else if guard.registry.isEmpty then .error .noProviders
  else rankedQuotes.mapM (guard.retainValid config)

/-- What the guard keeps of an order's candidates. -/
def retained :
    List (OrderQuote P) → List (OrderQuote P)
  | [] => []
  | best :: others =>
    if best.status ≠ .success then best :: others
    else if (best :: others).any (guard.passes config) then
      (best :: others).filter (guard.passes config)
    else [{ best with status := .priceCheckFailed }]

end

end

variable {guard : PriceGuard P} {config : PriceGuardConfig} {candidates : List (OrderQuote P)}

theorem retainValid_eq_ok (nonempty : candidates ≠ []) :
    guard.retainValid config candidates = .ok (guard.retained config candidates) := by
  obtain ⟨best, others, rfl⟩ := exists_cons_of_ne_nil nonempty
  unfold retainValid retained
  dsimp only
  by_cases placeholder : best.status ≠ .success
  · simp [placeholder]
  rw [head?_cons, Option.any_some, if_neg (by simpa using placeholder), if_neg placeholder]
  by_cases some : (best :: others).any (guard.passes config)
  · have kept : (best :: others).filter (guard.passes config) ≠ [] := by
      obtain ⟨candidate, member, passing⟩ := any_eq_true.mp some
      exact ne_nil_of_mem (mem_filter.mpr ⟨member, passing⟩)
    rw [if_pos some, if_pos (by simpa using kept)]
  · have none : ∀ candidate ∈ best :: others, guard.passes config candidate = false := by
      simpa using some
    have empty : (best :: others).filter (guard.passes config) = [] := by
      rw [filter_eq_nil_iff]
      intro candidate member
      rw [none candidate member]
      exact Bool.false_ne_true
    rw [if_neg some, empty]
    simp [none best mem_cons_self]

theorem retained_ne_nil (nonempty : candidates ≠ []) : guard.retained config candidates ≠ [] := by
  obtain ⟨best, others, rfl⟩ := exists_cons_of_ne_nil nonempty
  unfold retained
  dsimp only
  split_ifs with placeholder some
  · simp
  · obtain ⟨candidate, member, passing⟩ := any_eq_true.mp some
    exact ne_nil_of_mem (mem_filter.mpr ⟨member, passing⟩)
  · simp

end PriceGuard

end Fynd
