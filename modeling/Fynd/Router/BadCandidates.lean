import Fynd.Encoding.EncodeQuotes
import Fynd.Router.Solve

/-!
# One bad candidate

Before ranking, every successful candidate is turned into a solution and some get a floor.
The errors of both steps end the whole request, so it is answered only if no candidate of
any order is bad.
-/

namespace Fynd

open Foundation List

variable {P F : Type}

/-! ## One step over all answers -/

section Steps

variable {step : OrderQuote P → Except SolveError (OrderQuote P)}
  {responses after : OrderResponses P} {all refined : List (OrderResponses P)}

/-- Replaces every quote of an order. -/
def OrderResponses.updateQuotes (value : OrderQuote P → OrderQuote P)
    (responses : OrderResponses P) : OrderResponses P :=
  { responses with
    quotes := responses.quotes.map fun answer => { answer with quote := value answer.quote } }

theorem OrderResponses.mapQuotes_eq_ok {value : OrderQuote P → OrderQuote P}
    (each : ∀ answer ∈ responses.quotes, step answer.quote = .ok (value answer.quote)) :
    responses.mapQuotes step = .ok (responses.updateQuotes value) := by
  unfold mapQuotes
  rw [mapM_eq_ok_map fun answer member => by rw [each answer member]; rfl]
  rfl

/-- A step over an order that succeeds did so on every quote. -/
theorem OrderResponses.exists_of_mapQuotes (done : responses.mapQuotes step = .ok after)
    {answer : WorkerPoolQuote P} (member : answer ∈ responses.quotes) :
    ∃ quote, step answer.quote = .ok quote ∧ { answer with quote := quote } ∈ after.quotes := by
  obtain ⟨quotes, steps, done⟩ := bind_eq_ok_iff.mp done
  cases done
  obtain ⟨updated, listed, here⟩ := exists_of_forall₂_right (mapM_eq_ok_iff.mp steps).flip member
  obtain ⟨quote, stepped, same⟩ := bind_eq_ok_iff.mp here
  cases same
  exact ⟨quote, stepped, listed⟩

/-- A step over all orders that succeeds did so on every quote. -/
theorem exists_of_mapM_mapQuotes (done : all.mapM (OrderResponses.mapQuotes step) = .ok refined)
    (listed : responses ∈ all) {answer : WorkerPoolQuote P} (member : answer ∈ responses.quotes) :
    ∃ quote, step answer.quote = .ok quote ∧
      ∃ others ∈ refined, { answer with quote := quote } ∈ others.quotes := by
  obtain ⟨others, kept, here⟩ := exists_of_forall₂_right (mapM_eq_ok_iff.mp done).flip listed
  obtain ⟨quote, stepped, found⟩ := OrderResponses.exists_of_mapQuotes here member
  exact ⟨quote, stepped, others, kept, found⟩

end Steps

/-! ## Candidates that cannot be refined -/

section Refinement

variable {fallbackUserData : FallbackUserData P} {estimateGasUsage : EstimateGasUsage P}
  {options : EncodingOptions P F} {quote refined : OrderQuote P}

/-- Refinement changes the gas and the output net of gas only, and a candidate it accepts can be
turned into a solution. -/
theorem refineGasEstimate_eq_ok
    (done : refineGasEstimate fallbackUserData estimateGasUsage options quote = .ok refined) :
    (quote.status = .success → ∃ solution,
      solutionFromQuote fallbackUserData quote quote.amountOut none = .ok solution) ∧
    refined = { quote with
      amountOutNetGas := refined.amountOutNetGas
      gasEstimate := refined.gasEstimate } := by
  unfold refineGasEstimate at done
  split at done
  · rename_i unsuccessful
    cases done
    exact ⟨fun success => absurd success unsuccessful, rfl⟩
  · obtain ⟨solution, converted, done⟩ := bind_eq_ok_iff.mp done
    refine ⟨fun _ => ⟨solution, converted⟩, ?_⟩
    dsimp only at done
    split at done
    · obtain ⟨net, _, done⟩ := bind_eq_ok_iff.mp done
      cases done
      rfl
    · cases done
      rfl

variable [Double F] {routerFees : RouterFees}

theorem exists_floor_of_drop (success : quote.status = .success)
    (done : dropBelowMinAmountOut routerFees options quote = .ok refined) :
    ∃ clears, fallbackClearsMinAmountOut routerFees quote options = .ok clears := by
  unfold dropBelowMinAmountOut at done
  rw [if_neg (not_not.mpr success)] at done
  split at done
  · rename_i plain
    refine ⟨true, ?_⟩
    unfold fallbackClearsMinAmountOut
    rw [Option.isNone_iff_eq_none.mp plain]
  · obtain ⟨clears, computed, _⟩ := bind_eq_ok_iff.mp done
    exact ⟨clears, computed⟩

end Refinement

namespace WorkerPoolRouter

section BadCandidates

variable [Double F]

section

variable (router : WorkerPoolRouter P) (request : QuoteRequest P F)

/-- A successful candidate that cannot be turned into a solution, or whose floor cannot be
computed. Without encoding options neither is needed. -/
def isBadCandidate (quote : OrderQuote P) : Bool :=
  request.encodingOptions.any fun options => quote.status = .success &&
    (!(solutionFromQuote router.encoder.fallbackUserData quote quote.amountOut none).isOk ||
      !(fallbackClearsMinAmountOut router.routerFees quote options).isOk)

/-- The answers of an order without its bad candidates. -/
def withoutBad (responses : OrderResponses P) : OrderResponses P :=
  { responses with
    quotes := responses.quotes.filter fun answer => !router.isBadCandidate request answer.quote }

/-- The allocation of every order of a request. -/
def allocation (access : ExclusiveAccess) : Allocation :=
  allocate router.solverPools (orderClass request access) request.workerPools

/-- **A bad candidate does not sink the request.** The request is answered, and the other
candidates of every order rank as they do without the bad ones. -/
def RanksOthers (access : ExclusiveAccess) (solveOrder : OrderSolver P)
    (reference : RankedQuotes P) : Prop :=
  ∃ ranked, router.solve request access solveOrder = .ok ranked ∧
    let others := List.filter fun quote : OrderQuote P =>
      quote.status = .success && !router.isBadCandidate request quote
    ranked.perOrder.map others = reference.perOrder.map others

end

variable {router : WorkerPoolRouter P} {request : QuoteRequest P F} {access : ExclusiveAccess}

variable {allocations : List Allocation} {responses : OrderResponses P}

omit [Double F] in
/-- Every order gets the same worker pools. -/
theorem allocateOrders_eq_ok (done : router.allocateOrders request access = .ok allocations) :
    allocations = request.orders.map fun _ => router.allocation request access := by
  unfold allocateOrders at done
  split at done
  · cases done
  · obtain ⟨_, _, done⟩ := bind_eq_ok_iff.mp done
    dsimp only at done
    split at done
    · split at done <;> cases done
    · cases done
      rfl

/-- With pools for every order, solving is ranking their answers. -/
theorem solve_eq_rankResponses {solveOrder : OrderSolver P}
    (done : router.allocateOrders request access = .ok allocations) :
    router.solve request access solveOrder =
      router.rankResponses request allocations (request.orders.zipIdx.map fun entry =>
        solveOrder entry.2 entry.1 (router.allocation request access)) := by
  have paired : (request.orders.zip allocations).zipIdx = request.orders.zipIdx.map
      fun entry => ((entry.1, router.allocation request access), entry.2) := by
    have zipped : request.orders.zip allocations =
        request.orders.map fun order => (order, router.allocation request access) := by
      rw [allocateOrders_eq_ok done, ← zip_map', map_id']
    rw [zipped, zipIdx_map]
    rfl
  unfold solve
  rw [done]
  change router.rankResponses request allocations _ = _
  rw [paired, map_map]
  rfl

private theorem withoutBad_eq_self
    (noBad : ∀ answer ∈ responses.quotes, router.isBadCandidate request answer.quote = false) :
    router.withoutBad request responses = responses := by
  unfold withoutBad
  rw [filter_eq_self.mpr fun answer member => by rw [noBad answer member]; rfl]

/-- Answers that are refined have no bad candidate. -/
theorem not_bad_of_refineResponses {options : EncodingOptions P F}
    {all refined : List (OrderResponses P)} (encodes : request.encodingOptions = some options)
    (done : router.refineResponses options all = .ok refined) (listed : responses ∈ all)
    {answer : WorkerPoolQuote P} (member : answer ∈ responses.quotes) :
    router.isBadCandidate request answer.quote = false := by
  obtain ⟨_, refines, drops⟩ := bind_eq_ok_iff.mp done
  obtain ⟨quote, refines, others, kept, found⟩ := exists_of_mapM_mapQuotes refines listed member
  obtain ⟨_, drops, _⟩ := exists_of_mapM_mapQuotes drops kept found
  obtain ⟨converts, same⟩ := refineGasEstimate_eq_ok refines
  unfold isBadCandidate
  rw [encodes, Option.any_some]
  by_cases success : answer.quote.status = .success
  · obtain ⟨solution, converted⟩ := converts success
    have successful : quote.status = .success := by
      rw [same]
      exact success
    obtain ⟨clears, floor⟩ := exists_floor_of_drop successful drops
    rw [same] at floor
    -- the floor does not read the gas that refinement changed
    change fallbackClearsMinAmountOut router.routerFees answer.quote options = _ at floor
    rw [converted, floor]
    simp [Except.isOk, Except.toBool]
  · simp [success]

private theorem not_bad_of_rankResponses {all : List (OrderResponses P)} {ranked : RankedQuotes P}
    (done : router.rankResponses request allocations all = .ok ranked) (listed : responses ∈ all)
    {answer : WorkerPoolQuote P} (member : answer ∈ responses.quotes) :
    router.isBadCandidate request answer.quote = false := by
  obtain ⟨refined, done, _⟩ := bind_eq_ok_iff.mp done
  cases encodes : request.encodingOptions with
  | none => simp [isBadCandidate, encodes]
  | some options =>
    rw [encodes] at done
    exact not_bad_of_refineResponses encodes done listed member

end BadCandidates

/-- **A request survives exactly when no candidate is bad.** Given that it is answered without its
bad candidates, it is answered with the same ranking of the others if and only if there are no
bad ones. -/
theorem ranksOthers_iff_no_bad [Double F] (router : WorkerPoolRouter P) (request : QuoteRequest P F)
    (access : ExclusiveAccess) (solveOrder : OrderSolver P) (reference : RankedQuotes P)
    (answered : router.solve request access (fun position order allocation =>
      router.withoutBad request (solveOrder position order allocation)) = .ok reference) :
    router.RanksOthers request access solveOrder reference ↔
      ∀ position order, request.orders[position]? = some order →
        ∀ answer ∈ (solveOrder position order (router.allocation request access)).quotes,
          router.isBadCandidate request answer.quote = false := by
  obtain ⟨allocations, allocated, _⟩ := bind_eq_ok_iff.mp answered
  rw [solve_eq_rankResponses allocated] at answered
  unfold RanksOthers
  rw [solve_eq_rankResponses allocated]
  constructor
  · rintro ⟨ranked, solved, -⟩ position order placed answer member
    refine not_bad_of_rankResponses solved (mem_map.mpr ⟨(order, position), ?_, rfl⟩) member
    exact mem_zipIdx_iff_getElem?.mpr placed
  · intro noBad
    refine ⟨reference, ?_, rfl⟩
    rw [← answered]
    congr 1
    apply map_congr_left
    intro entry listed
    have kept := noBad entry.2 entry.1 (mem_zipIdx_iff_getElem?.mp listed)
    exact (withoutBad_eq_self kept).symm

end WorkerPoolRouter

/-! ## Two orders -/

section Samples

/-- A router with one public worker pool. -/
def sampleRouter : WorkerPoolRouter Unit where
  solverPools := [⟨"public", .publicOnly, false⟩]
  encoder := deployedEncoder
  routerFees := sampleFees
  estimateGasUsage := fun _ _ => 60000

/-- A request of two orders, to be encoded. -/
def sampleRequest : QuoteRequest Unit ℚ where
  orders := [⟨0, 1, 1000, .sell⟩, ⟨0, 1, 1000, .sell⟩]
  encodingOptions := some sampleOptions

/-- A quote of one public swap that nets 990 of 1000. -/
def plainQuote : OrderQuote Unit := { singleSwapQuote publicSwap with gasEstimate := 50000 }

/-- The same quote on a route that was built without its tokens. -/
def tokenlessQuote : OrderQuote Unit :=
  { plainQuote with route := some { swaps := [publicSwap], tokens := ∅ } }

/-- The public pool answers the first order with one quote and the second with another. -/
def answersWith (first second : OrderQuote Unit) (position : Nat) (_ : Order) (_ : Allocation) :
    OrderResponses Unit where
  quotes := [⟨"public", if position = 0 then first else second⟩]
  failedSolvers := []

/-- The route of the second order's quote lacks its tokens. The first order is ranked without that
quote, but with it the request fails. -/
theorem tokenless_quote_sinks_request :
    ∃ reference, sampleRouter.solve sampleRequest .denied (fun position order allocation =>
        sampleRouter.withoutBad sampleRequest
          (answersWith plainQuote tokenlessQuote position order allocation)) = .ok reference ∧
      (reference.perOrder.map fun candidates => candidates.map OrderQuote.status) =
        [[.success], [.noRouteFound]] ∧
      ¬ sampleRouter.RanksOthers sampleRequest .denied (answersWith plainQuote tokenlessQuote)
        reference := by
  obtain ⟨reference, solved, ranks⟩ : ∃ reference, sampleRouter.solve sampleRequest .denied
      (fun position order allocation => sampleRouter.withoutBad sampleRequest
        (answersWith plainQuote tokenlessQuote position order allocation)) = .ok reference ∧
      (reference.perOrder.map fun candidates => candidates.map OrderQuote.status) =
        [[.success], [.noRouteFound]] := exists_ok_of_any (by decide +kernel)
  refine ⟨reference, solved, ranks, ?_⟩
  rintro ⟨ranked, solved, -⟩
  have failed : (sampleRouter.solve sampleRequest .denied
      (answersWith plainQuote tokenlessQuote)).toOption.isSome = false := by decide +kernel
  rw [solved] at failed
  cases failed

/-- Two quotes with their tokens are ranked. -/
theorem plain_quotes_are_ranked :
    ∃ reference, sampleRouter.solve sampleRequest .denied (fun position order allocation =>
        sampleRouter.withoutBad sampleRequest
          (answersWith plainQuote plainQuote position order allocation)) = .ok reference ∧
      sampleRouter.RanksOthers sampleRequest .denied (answersWith plainQuote plainQuote)
        reference := by
  have answered : (sampleRouter.solve sampleRequest .denied (fun position order allocation =>
      sampleRouter.withoutBad sampleRequest
        (answersWith plainQuote plainQuote position order allocation))).toOption.isSome = true := by
    decide +kernel
  refine ⟨_, eq_ok_okValue answered, ?_⟩
  refine (WorkerPoolRouter.ranksOthers_iff_no_bad sampleRouter sampleRequest .denied
    (answersWith plainQuote plainQuote) _ (eq_ok_okValue answered)).mpr ?_
  intro position order _ answer member
  have same : answer.quote = plainQuote := by
    rw [mem_singleton.mp member]
    exact ite_self _
  rw [same]
  decide +kernel

end Samples

end Fynd
