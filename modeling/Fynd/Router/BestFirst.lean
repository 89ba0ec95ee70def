import Fynd.Router.BadCandidates
import Fynd.Router.EncodeRetries

/-!
# The quote an order gets

Ranking, the price guard and the retries together answer every order with the first of its
candidates, from the best net output down, that passes the guard and encodes. This is so for
every order on its own, provided that no candidate of any order ends the request before it is
ranked.
-/

namespace Fynd

open Foundation List

variable {P F : Type}

/-! ## What an order is owed -/

/-- The quote that ranked candidates are owed. Of those that pass the guard the first one is tried,
then those without an RFQ leg. -/
def chosenOf (passes : OrderQuote P → Bool) (encodes : OrderQuote P → Option (OrderQuote P))
    (placeholder : OrderQuote P) : List (OrderQuote P) → OrderQuote P
  | [] => placeholder
  | best :: others =>
    match (best :: others).filter passes with
    | [] => { best with status := .priceCheckFailed }
    | first :: later =>
      ((first :: later.filter fun candidate => !hasRfqLeg candidate).findSome? encodes).getD
        { first with status := .encodingFailed }

/-- **Best first.** The result is owed to the candidates in an order of falling net output. -/
def BestFirst (candidates : List (OrderQuote P)) (passes : OrderQuote P → Bool)
    (encodes : OrderQuote P → Option (OrderQuote P)) (placeholder result : OrderQuote P) : Prop :=
  ∃ ranked : List (OrderQuote P), ranked.Perm candidates ∧ ranked.Pairwise NetsAtLeast ∧
    result = chosenOf passes encodes placeholder ranked

namespace WorkerPoolRouter

section Stages

variable {router : WorkerPoolRouter P} {request : QuoteRequest P F} {access : ExclusiveAccess}
  {options : EncodingOptions P F} {solveOrder : OrderSolver P}
  {withinBudget : Nat → Bool} {task : OrderQuote P → EncodingTask P F} {quote : OrderQuote P}

/-! ## Ranking and the guard -/

variable (router options) in
/-- Whether a candidate passes the guard, if the request asks for it. -/
def passesGuard (candidate : OrderQuote P) : Bool :=
  !options.priceGuard.enabled ||
    router.priceGuard.any fun guard => guard.passes options.priceGuard candidate

variable (router options) in
/-- The guard the request asks for is there, and has a source. -/
def Guarded : Prop :=
  options.priceGuard.enabled = true → ∃ guard, router.priceGuard = some guard ∧ guard.registry ≠ []

variable (router options) in
/-- What is left of ranked candidates behind the guard. -/
def keptCandidates (candidates : List (OrderQuote P)) : List (OrderQuote P) :=
  if options.priceGuard.enabled then
    router.priceGuard.elim candidates fun guard => guard.retained options.priceGuard candidates
  else candidates

variable {allocations : List Allocation} {refined : List (OrderResponses P)}
  {candidates : List (OrderQuote P)}

private theorem keptCandidates_ne_nil
    (nonempty : candidates ≠ []) : router.keptCandidates options candidates ≠ [] := by
  unfold keptCandidates
  split
  · cases router.priceGuard with
    | none => exact nonempty
    | some guard => exact PriceGuard.retained_ne_nil nonempty
  · exact nonempty

/-- What is left where the best candidate is successful: those that pass, or the best one marked. -/
theorem keptCandidates_of_success {best : OrderQuote P} {others : List (OrderQuote P)}
    (guarded : router.Guarded options) (success : best.status = .success) :
    router.keptCandidates options (best :: others) =
      if (best :: others).any (router.passesGuard options) then
        (best :: others).filter (router.passesGuard options)
      else [{ best with status := .priceCheckFailed }] := by
  unfold keptCandidates
  cases enabled : options.priceGuard.enabled with
  | false =>
    have all : router.passesGuard options = fun _ => true := by
      funext candidate
      simp [passesGuard, enabled]
    simp [all]
  | true =>
    obtain ⟨guard, present, _⟩ := guarded enabled
    have same : router.passesGuard options = guard.passes options.priceGuard := by
      funext candidate
      simp [passesGuard, enabled, present]
    rw [if_pos rfl, present, same, Option.elim_some, PriceGuard.retained,
      if_neg (not_not.mpr success)]

private theorem keptCandidates_of_placeholder {placeholder : OrderQuote P}
    (unsuccessful : placeholder.status ≠ .success) :
    router.keptCandidates options [placeholder] = [placeholder] := by
  unfold keptCandidates
  split
  · cases router.priceGuard with
    | none => rfl
    | some guard => exact if_pos unsuccessful
  · rfl

private theorem validatePrices_eq_ok (encodes : request.encodingOptions = some options)
    (guarded : router.Guarded options) {ranked : List (List (OrderQuote P))}
    (nonempty : ∀ candidates ∈ ranked, candidates ≠ []) : router.validatePrices request ranked =
      .ok (ranked.map (router.keptCandidates options)) := by
  unfold validatePrices keptCandidates
  rw [encodes]
  cases enabled : options.priceGuard.enabled with
  | false => simp [Option.filter, enabled]
  | true =>
    obtain ⟨guard, present, registered⟩ := guarded enabled
    have validated : guard.validate options.priceGuard ranked =
        .ok (ranked.map (guard.retained options.priceGuard)) := by
      unfold PriceGuard.validate
      rw [enabled, if_neg (by simp), if_neg (by simpa using registered)]
      exact mapM_eq_ok_map fun candidates member =>
        PriceGuard.retainValid_eq_ok (nonempty candidates member)
    simp [Option.filter, enabled, present, validated, Except.mapError]

private theorem rankQuotes_ne_nil (responses : OrderResponses P) (options : QuoteOptions) :
    rankQuotes responses options ≠ [] := by
  unfold rankQuotes
  dsimp only
  split
  · exact cons_ne_nil _ _
  · rename_i some
    intro none
    have same := perm_insertionSort NetsAtLeast
      ((responses.quotes.map WorkerPoolQuote.quote).filter fun quote => isRankable quote options)
    rw [none] at same
    exact some (List.isEmpty_iff.mpr same.symm.eq_nil)

/-- Orders without exclusive routing are ranked by their answers alone. -/
theorem rankOrders_eq_ok
    (publicOnly : ∀ allocation ∈ allocations, allocation.exclusiveRoutingActive = false)
    (enough : refined.length ≤ allocations.length) (options : QuoteOptions) :
    ((refined.zip allocations).mapM fun entry => router.rankOrder options entry.2 entry.1) =
      .ok (refined.map fun responses => rankQuotes responses options) := by
  have every : ∀ entry ∈ refined.zip allocations,
      router.rankOrder options entry.2 entry.1 = .ok (rankQuotes entry.1 options) := by
    intro entry member
    unfold rankOrder
    rw [publicOnly entry.2 (of_mem_zip member).2, if_neg Bool.false_ne_true]
  rw [mapM_eq_ok_map every]
  conv_rhs => rw [← map_fst_zip enough, map_map]
  rfl

private theorem status_placeholderQuote (responses : OrderResponses P) (options : QuoteOptions) :
    (placeholderQuote responses options).status ≠ .success ∧
      (placeholderQuote responses options).status ≠ .encodingFailed := by
  unfold placeholderQuote
  split
  · exact ⟨nofun, nofun⟩
  · unfold failureStatus
    split_ifs <;> exact ⟨nofun, nofun⟩

/-! ## Refinement -/

private theorem exists_refinedNetAmountOut_iff {amountOut naiveNet : Nat}
    (refinedGas naiveGas : Nat) :
    (∃ net, refinedNetAmountOut amountOut naiveNet refinedGas naiveGas = .ok net) ↔
      naiveNet ≤ amountOut := by
  unfold refinedNetAmountOut subOrPanic checkedSub
  by_cases zero : naiveNet = 0
  · simp [zero]
  by_cases within : naiveNet ≤ amountOut
  · simp [zero, within, bind, Except.bind, pure, Except.pure]
  · simp [zero, within, bind, Except.bind]

/-- The gas of a successful candidate is estimated anew exactly where it can be turned into a
solution and its net is not above its output. -/
theorem exists_refineGasEstimate_iff (success : quote.status = .success) :
    (∃ regassed, refineGasEstimate router.encoder.fallbackUserData router.estimateGasUsage options
        quote = .ok regassed) ↔
      (∃ solution, solutionFromQuote router.encoder.fallbackUserData quote quote.amountOut
        none = .ok solution) ∧
      (0 < quote.gasEstimate → quote.amountOutNetGas ≤ quote.amountOut) := by
  unfold refineGasEstimate
  rw [if_neg (not_not.mpr success)]
  constructor
  · rintro ⟨regassed, done⟩
    obtain ⟨solution, converted, done⟩ := bind_eq_ok_iff.mp done
    refine ⟨⟨solution, converted⟩, fun gas => ?_⟩
    dsimp only at done
    rw [if_pos gas] at done
    obtain ⟨net, refines, _⟩ := bind_eq_ok_iff.mp done
    exact (exists_refinedNetAmountOut_iff _ _).mp ⟨net, refines⟩
  · rintro ⟨⟨solution, converted⟩, nets⟩
    rw [converted]
    by_cases gas : quote.gasEstimate > 0
    · obtain ⟨net, refines⟩ := (exists_refinedNetAmountOut_iff
        (router.estimateGasUsage { solution with userTransferType := options.transferType }
          (deriveStrategy quote)) quote.gasEstimate).mpr (nets gas)
      exact ⟨_, (if_pos gas).trans (bind_eq_ok_iff.mpr ⟨net, refines, rfl⟩)⟩
    · exact ⟨quote, bind_eq_ok_iff.mpr ⟨solution, rfl, if_neg gas⟩⟩

variable [Double F]

section

variable (router : WorkerPoolRouter P) (options : EncodingOptions P F) (quote : OrderQuote P)

/-- A candidate can go through both steps before ranking: it can be turned into a solution, its
output is not below its own net where its gas is estimated anew, and its floor can be computed. -/
structure Refinable : Prop where
  converts : ∃ solution, solutionFromQuote router.encoder.fallbackUserData quote quote.amountOut
    none = .ok solution
  nets : 0 < quote.gasEstimate → quote.amountOutNetGas ≤ quote.amountOut
  floor : ∃ clears, fallbackClearsMinAmountOut router.routerFees quote options = .ok clears

/-- A candidate with its gas estimated anew. -/
def regassedQuote : OrderQuote P :=
  ((refineGasEstimate router.encoder.fallbackUserData router.estimateGasUsage options
    quote).toOption).getD quote

/-- A candidate after the check of its floor. -/
def flooredQuote : OrderQuote P :=
  ((dropBelowMinAmountOut router.routerFees options quote).toOption).getD quote

/-- A candidate as it is ranked. -/
def refinedQuote : OrderQuote P :=
  router.flooredQuote options (router.regassedQuote options quote)

variable (request) in
/-- The candidates of an order: its answers as they are refined, those that can be ranked. -/
def candidatesOf (responses : OrderResponses P) : List (OrderQuote P) :=
  ((responses.updateQuotes (router.refinedQuote options)).quotes.map
    WorkerPoolQuote.quote).filter fun quote => isRankable quote request.options

end

private theorem exists_dropBelowMinAmountOut_iff {routerFees : RouterFees}
    (success : quote.status = .success) :
    (∃ refined, dropBelowMinAmountOut routerFees options quote = .ok refined) ↔
      ∃ clears, fallbackClearsMinAmountOut routerFees quote options = .ok clears := by
  refine ⟨fun ⟨refined, done⟩ => exists_floor_of_drop success done, fun ⟨clears, computed⟩ => ?_⟩
  unfold dropBelowMinAmountOut
  rw [if_neg (not_not.mpr success), computed]
  split
  · exact ⟨_, rfl⟩
  · cases clears <;> exact ⟨_, rfl⟩

private theorem refines_iff_refinable :
    (∃ regassed, refineGasEstimate router.encoder.fallbackUserData router.estimateGasUsage options
        quote = .ok regassed ∧
      ∃ refined, dropBelowMinAmountOut router.routerFees options regassed = .ok refined) ↔
    (quote.status = .success → router.Refinable options quote) := by
  constructor
  · rintro ⟨regassed, regasses, drops⟩ success
    obtain ⟨converts, nets⟩ := (exists_refineGasEstimate_iff success).mp ⟨regassed, regasses⟩
    obtain ⟨_, same⟩ := refineGasEstimate_eq_ok regasses
    rw [same] at drops
    have floor := (exists_dropBelowMinAmountOut_iff (by exact success)).mp drops
    exact ⟨converts, nets, floor⟩
  · intro refinable
    by_cases success : quote.status = .success
    · obtain ⟨converts, nets, floor⟩ := refinable success
      obtain ⟨regassed, regasses⟩ := (exists_refineGasEstimate_iff success).mpr ⟨converts, nets⟩
      obtain ⟨_, same⟩ := refineGasEstimate_eq_ok regasses
      rw [same] at regasses
      refine ⟨_, regasses, (exists_dropBelowMinAmountOut_iff ?_).mpr floor⟩
      exact success
    · exact ⟨quote, if_pos success, quote, if_pos success⟩

/-- A candidate that can go through is refined, then checked. -/
theorem refinedQuote_steps (refinable : quote.status = .success → router.Refinable options quote) :
    refineGasEstimate router.encoder.fallbackUserData router.estimateGasUsage options quote =
        .ok (router.regassedQuote options quote) ∧
      dropBelowMinAmountOut router.routerFees options (router.regassedQuote options quote) =
        .ok (router.flooredQuote options (router.regassedQuote options quote)) := by
  obtain ⟨regassed, regasses, refined, drops⟩ := refines_iff_refinable.mpr refinable
  have same : router.regassedQuote options quote = regassed := by
    unfold regassedQuote
    rw [regasses]
    rfl
  rw [same]
  refine ⟨regasses, ?_⟩
  unfold flooredQuote
  rw [drops]
  rfl

variable {all : List (OrderResponses P)} {responses : OrderResponses P}

variable (router options all) in
/-- Every successful answer can go through. -/
def AllRefinable : Prop :=
  ∀ responses ∈ all, ∀ answer ∈ responses.quotes, answer.quote.status = .success →
    router.Refinable options answer.quote

private theorem refineResponses_eq_ok (refinable : router.AllRefinable options all) :
    router.refineResponses options all =
      .ok (all.map (OrderResponses.updateQuotes (router.refinedQuote options))) := by
  let regassed := all.map (OrderResponses.updateQuotes (router.regassedQuote options))
  have regasses : all.mapM (OrderResponses.mapQuotes (refineGasEstimate
      router.encoder.fallbackUserData router.estimateGasUsage options)) = .ok regassed :=
    mapM_eq_ok_map fun responses listed => OrderResponses.mapQuotes_eq_ok fun answer member =>
      (refinedQuote_steps (refinable responses listed answer member)).1
  have drops : regassed.mapM
      (OrderResponses.mapQuotes (dropBelowMinAmountOut router.routerFees options)) =
        .ok (regassed.map (OrderResponses.updateQuotes (router.flooredQuote options))) := by
    refine mapM_eq_ok_map fun responses listed => OrderResponses.mapQuotes_eq_ok ?_
    intro answer member
    obtain ⟨before, inside, rfl⟩ := mem_map.mp listed
    obtain ⟨given, asked, rfl⟩ := mem_map.mp member
    exact (refinedQuote_steps (refinable before inside given asked)).2
  unfold refineResponses
  rw [regasses]
  refine drops.trans ?_
  rw [map_map]
  refine congrArg Except.ok (map_congr_left fun responses _ => ?_)
  simp only [OrderResponses.updateQuotes, Function.comp_apply, map_map]
  rfl

private theorem refinable_of_refineResponses
    (done : router.refineResponses options all = .ok refined) :
    router.AllRefinable options all := by
  intro responses listed answer member success
  obtain ⟨_, regasses, drops⟩ := bind_eq_ok_iff.mp done
  obtain ⟨quote, regasses, others, kept, found⟩ := exists_of_mapM_mapQuotes regasses listed member
  obtain ⟨refined, drops, _⟩ := exists_of_mapM_mapQuotes drops kept found
  exact refines_iff_refinable.mp ⟨quote, regasses, refined, drops⟩ success

/-! ## Ranked answers -/

variable (router request options responses) in
/-- What an order's answers are ranked to, behind the guard. -/
def rankedOf : List (OrderQuote P) :=
  router.keptCandidates options
    (rankQuotes (responses.updateQuotes (router.refinedQuote options)) request.options)

/-- Answers that can all go through are ranked order by order. -/
theorem rankResponses_eq_ok
    (encodes : request.encodingOptions = some options) (guarded : router.Guarded options)
    (publicOnly : ∀ allocation ∈ allocations, allocation.exclusiveRoutingActive = false)
    (enough : all.length ≤ allocations.length) (refinable : router.AllRefinable options all) :
    ∃ ranked, router.rankResponses request allocations all = .ok ranked ∧
      ranked.perOrder = all.map (router.rankedOf request options) := by
  have nonempty : ∀ candidates ∈ all.map (router.rankedOf request options), candidates ≠ [] :=
    forall_mem_map.mpr fun _ _ => keptCandidates_ne_nil (rankQuotes_ne_nil _ _)
  have refines : (request.encodingOptions.elim (.ok all) fun options =>
      router.refineResponses options all) =
        .ok (all.map (OrderResponses.updateQuotes (router.refinedQuote options))) := by
    rw [encodes]
    exact refineResponses_eq_ok refinable
  refine ⟨⟨_, nonempty⟩, bind_eq_ok_iff.mpr ⟨_, refines, bind_eq_ok_iff.mpr ⟨_,
    rankOrders_eq_ok publicOnly ?_ request.options, bind_eq_ok_iff.mpr ⟨_,
      validatePrices_eq_ok encodes guarded ?_, ?_⟩⟩⟩, rfl⟩
  · rw [length_map]
    exact enough
  · exact forall_mem_map.mpr fun _ _ => rankQuotes_ne_nil _ _
  · rw [map_map, map_map]
    exact dif_pos nonempty

private theorem rankedOf_of_empty (empty : router.candidatesOf request options responses = []) :
    router.rankedOf request options responses =
      [placeholderQuote (responses.updateQuotes (router.refinedQuote options))
        request.options] := by
  refine (congrArg _ (if_pos (List.isEmpty_iff.mpr empty))).trans ?_
  exact keptCandidates_of_placeholder (status_placeholderQuote _ _).1

/-- Where a candidate can be ranked, the guard sees all of them in order, and all are successful. -/
theorem rankedOf_of_nonempty (some : router.candidatesOf request options responses ≠ []) :
    router.rankedOf request options responses = router.keptCandidates options
        ((router.candidatesOf request options responses).insertionSort NetsAtLeast) ∧
      ∀ candidate ∈ (router.candidatesOf request options responses).insertionSort NetsAtLeast,
        candidate.status = .success := by
  refine ⟨congrArg _ (if_neg (mt List.isEmpty_iff.mp some)), fun candidate member => ?_⟩
  have rankable := (mem_filter.mp ((mem_insertionSort NetsAtLeast).mp member)).2
  simp only [isRankable, Bool.and_eq_true, decide_eq_true_eq] at rankable
  exact rankable.1

variable (router request access solveOrder) in
/-- The answers of all orders of a request. -/
def answersOf : List (OrderResponses P) :=
  request.orders.zipIdx.map fun entry =>
    solveOrder entry.2 entry.1 (router.allocation request access)

section Serves

variable [SerializeSolution P]

variable (router request access options solveOrder withinBudget task) in
/-- What the router needs to serve a request to be encoded from public liquidity alone: every order
has worker pools, the guard is there if it is asked for, and encoding treats each candidate
alone. -/
structure Serves : Prop where
  encodes : request.encodingOptions = some options
  allocated : ∃ allocations, router.allocateOrders request access = .ok allocations
  publicOnly : (router.allocation request access).exclusiveRoutingActive = false
  guarded : router.Guarded options
  alone : ActsAlone router.encoder options router.routerFees withinBudget task fun quote =>
    ∃ responses ∈ router.answersOf request access solveOrder,
      quote ∈ router.candidatesOf request options responses

/-- What the answers of an order come to. -/
def orderOutcome (router : WorkerPoolRouter P) (request : QuoteRequest P F)
    (options : EncodingOptions P F) (task : OrderQuote P → EncodingTask P F)
    (responses : OrderResponses P) : OrderQuote P :=
  chosenOf (router.passesGuard options) (encodesTo router.encoder options router.routerFees task)
    (placeholderQuote (responses.updateQuotes (router.refinedQuote options)) request.options)
    ((router.candidatesOf request options responses).insertionSort NetsAtLeast)

variable (task) in
/-- The retries take the ranked candidates of an order to what it is owed. -/
theorem outcomeOf_rankedOf {responses : OrderResponses P} {best : OrderQuote P}
    {others : List (OrderQuote P)} (guarded : router.Guarded options)
    (ranked : router.rankedOf request options responses = best :: others) :
    outcomeOf (encodesTo router.encoder options router.routerFees task) best others =
        router.orderOutcome request options task responses ∧
      best.status ≠ .encodingFailed ∧
      ∀ quote ∈ best :: others, quote.status = .success →
        quote ∈ router.candidatesOf request options responses := by
  unfold orderOutcome
  by_cases empty : router.candidatesOf request options responses = []
  · rw [rankedOf_of_empty empty] at ranked
    obtain ⟨rfl, rfl⟩ := List.cons.inj ranked
    rw [empty]
    obtain ⟨unsuccessful, unfailed⟩ := status_placeholderQuote
      (responses.updateQuotes (router.refinedQuote options)) request.options
    refine ⟨if_neg unsuccessful, unfailed, fun quote member success => ?_⟩
    rw [mem_singleton.mp member] at success
    exact absurd success unsuccessful
  · obtain ⟨kept, successful⟩ := rankedOf_of_nonempty empty
    obtain ⟨first, later, sorted⟩ : ∃ first later,
        (router.candidatesOf request options responses).insertionSort NetsAtLeast =
          first :: later := by
      refine exists_cons_of_ne_nil fun none => empty ?_
      exact (none ▸ perm_insertionSort NetsAtLeast _).symm.eq_nil
    rw [sorted] at kept successful ⊢
    rw [kept, keptCandidates_of_success guarded (successful first mem_cons_self)] at ranked
    split at ranked
    · have success : ∀ candidate ∈ best :: others, candidate.status = .success :=
        fun candidate member => successful candidate (mem_of_mem_filter (ranked ▸ member))
      have retried : others.filter isRetryCandidate =
          others.filter fun candidate => !hasRfqLeg candidate := by
        apply filter_congr
        intro candidate member
        simp [isRetryCandidate, success candidate (mem_cons_of_mem _ member)]
      have chosen := success best mem_cons_self
      simp only [chosenOf, ranked]
      rw [outcomeOf, if_pos chosen, retried, chosen]
      refine ⟨rfl, (by simp), fun quote member _ => (mem_insertionSort NetsAtLeast).mp ?_⟩
      rw [sorted]
      exact mem_of_mem_filter (ranked ▸ member)
    · rename_i none
      obtain ⟨rfl, rfl⟩ := List.cons.inj ranked
      have refused : (first :: later).filter (router.passesGuard options) = [] := by
        rw [filter_eq_nil_iff]
        exact fun candidate member passes => none (any_eq_true.mpr ⟨candidate, member, passes⟩)
      simp only [chosenOf, refused]
      refine ⟨if_neg (by simp), (by simp), fun quote member success => ?_⟩
      rw [mem_singleton.mp member] at success
      cases success

/-- **A request, order by order.** -/
theorem quoteOrders_eq_ok
    (serves : router.Serves request access options solveOrder withinBudget task)
    (refinable : router.AllRefinable options (router.answersOf request access solveOrder)) :
    router.quoteOrders request access solveOrder withinBudget (fun _ _ => task) =
      .ok ((router.answersOf request access solveOrder).map
        (router.orderOutcome request options task)) := by
  obtain ⟨allocations, allocated⟩ := serves.allocated
  have given := allocateOrders_eq_ok allocated
  have publicOnly : ∀ allocation ∈ allocations, allocation.exclusiveRoutingActive = false := by
    intro allocation member
    rw [given] at member
    obtain ⟨_, _, same⟩ := mem_map.mp member
    rw [← same]
    exact serves.publicOnly
  have enough : (router.answersOf request access solveOrder).length ≤ allocations.length := by
    rw [given]
    simp [answersOf]
  obtain ⟨ranked, solved, perOrder⟩ :=
    rankResponses_eq_ok serves.encodes serves.guarded publicOnly enough refinable
  have fresh : ∀ candidates ∈ ranked.perOrder, ∀ best ∈ candidates.head?,
      best.status ≠ .encodingFailed := by
    intro candidates member best head
    rw [perOrder] at member
    obtain ⟨responses, _, rfl⟩ := mem_map.mp member
    exact (outcomeOf_rankedOf task serves.guarded (eq_cons_of_mem_head? head)).2.1
  have inside : ∀ candidates ∈ ranked.perOrder, ∀ quote ∈ candidates, quote.status = .success →
      ∃ responses ∈ router.answersOf request access solveOrder,
        quote ∈ router.candidatesOf request options responses := by
    intro candidates member quote found success
    rw [perOrder] at member
    obtain ⟨responses, given, rfl⟩ := mem_map.mp member
    obtain ⟨best, others, ranks⟩ := exists_cons_of_ne_nil (ne_nil_of_mem found)
    exact ⟨responses, given,
      (outcomeOf_rankedOf task serves.guarded ranks).2.2 quote (ranks ▸ found) success⟩
  obtain ⟨quotes, encoded, outcomes⟩ := encodeWithRetries_eq_ok serves.alone ranked fresh inside
  rw [perOrder, forall₂_map_left_iff] at outcomes
  have same : (router.answersOf request access solveOrder).map
      (router.orderOutcome request options task) = quotes.map id := by
    refine map_eq_map_of_forall₂ outcomes ?_
    rintro responses quote ⟨best, others, ranks, rfl⟩
    exact (outcomeOf_rankedOf task serves.guarded ranks).1.symm
  rw [same, map_id]
  refine bind_eq_ok_iff.mpr ⟨ranked, (solve_eq_rankResponses allocated).trans solved, ?_⟩
  rw [serves.encodes]
  exact encoded

omit [Double F] [SerializeSolution P] in
private theorem exists_allocateOrders_single {allocations : List Allocation} {order : Order}
    (done : router.allocateOrders request access = .ok allocations)
    (member : order ∈ request.orders) :
    ∃ single, router.allocateOrders { request with orders := [order] } access = .ok single := by
  unfold allocateOrders at done ⊢
  split at done
  · cases done
  · rename_i configured
    obtain ⟨_, allowed, done⟩ := bind_eq_ok_iff.mp done
    dsimp only at done
    split at done
    · split at done <;> cases done
    · rename_i served
      refine ⟨[router.allocation request access], ?_⟩
      rw [if_neg configured]
      refine bind_eq_ok_iff.mpr ⟨(), allowed, if_neg fun unserved => served ?_⟩
      obtain ⟨allocation, given, empty⟩ := any_eq_true.mp unserved
      rw [mem_singleton.mp given] at empty
      exact any_eq_true.mpr ⟨_, mem_map.mpr ⟨order, member, rfl⟩, empty⟩

variable (serves : router.Serves request access options solveOrder withinBudget task)
include serves

/-- A router that serves a request serves each of its orders alone. -/
theorem Serves.single {position : Nat} {order : Order}
    (placed : request.orders[position]? = some order) :
    router.Serves { request with orders := [order] } access options (fun _ => solveOrder position)
      withinBudget task where
  encodes := serves.encodes
  allocated :=
    have ⟨_, allocated⟩ := serves.allocated
    exists_allocateOrders_single allocated (mem_of_getElem? placed)
  publicOnly := serves.publicOnly
  guarded := serves.guarded
  alone := { serves.alone with
    calm := by
      rintro quote ⟨responses, given, candidate⟩
      rw [show responses = _ from mem_singleton.mp given] at candidate
      exact serves.alone.calm quote ⟨_, mem_map.mpr ⟨(order, position),
        mem_zipIdx_iff_getElem?.mpr placed, rfl⟩, candidate⟩ }

variable (router request access options solveOrder withinBudget task) in
/-- **Best first, for every order on its own.** The request is answered with one quote per order.
Each is owed to the order's candidates, and is the one the order gets when it is asked alone. -/
def SelectsBestFirst : Prop :=
  ∃ quotes, router.quoteOrders request access solveOrder withinBudget (fun _ _ => task) =
      .ok quotes ∧
    quotes.length = request.orders.length ∧
    ∀ position order quote, request.orders[position]? = some order →
      quotes[position]? = some quote →
      let responses := solveOrder position order (router.allocation request access)
      BestFirst (router.candidatesOf request options responses) (router.passesGuard options)
          (encodesTo router.encoder options router.routerFees task)
          (placeholderQuote (responses.updateQuotes (router.refinedQuote options))
            request.options) quote ∧
        router.quoteOrders { request with orders := [order] } access
          (fun _ => solveOrder position) withinBudget (fun _ _ => task) = .ok [quote]

/-- A request that is answered has no successful answer that cannot go through. -/
theorem refinable_of_quoteOrders {quotes : List (OrderQuote P)}
    (done : router.quoteOrders request access solveOrder withinBudget (fun _ _ => task) =
      .ok quotes) : router.AllRefinable options (router.answersOf request access solveOrder) := by
  obtain ⟨allocations, allocated⟩ := serves.allocated
  obtain ⟨ranked, solved, _⟩ := bind_eq_ok_iff.mp done
  rw [solve_eq_rankResponses allocated] at solved
  obtain ⟨refined, refines, _⟩ := bind_eq_ok_iff.mp solved
  rw [serves.encodes] at refines
  exact refinable_of_refineResponses refines

end Serves

end Stages

/-- **Selection is best first exactly when every answer can go through.** -/
theorem selectsBestFirst_iff_refinable [Double F] [SerializeSolution P]
    (router : WorkerPoolRouter P) (request : QuoteRequest P F) (access : ExclusiveAccess)
    (options : EncodingOptions P F) (solveOrder : OrderSolver P)
    (withinBudget : Nat → Bool) (task : OrderQuote P → EncodingTask P F)
    (serves : router.Serves request access options solveOrder withinBudget task) :
    router.SelectsBestFirst request access options solveOrder withinBudget task ↔
      ∀ responses ∈ router.answersOf request access solveOrder, ∀ answer ∈ responses.quotes,
        answer.quote.status = .success → router.Refinable options answer.quote := by
  constructor
  · rintro ⟨quotes, done, -, -⟩
    exact refinable_of_quoteOrders serves done
  · intro refinable
    refine ⟨_, quoteOrders_eq_ok serves refinable, by simp [answersOf], ?_⟩
    intro position order quote placed answered
    have same : router.orderOutcome request options task
        (solveOrder position order (router.allocation request access)) = quote := by
      simpa [answersOf, placed] using answered
    rw [← same]
    refine ⟨⟨_, perm_insertionSort NetsAtLeast _, pairwise_insertionSort NetsAtLeast _,
      rfl⟩, quoteOrders_eq_ok (serves.single placed) ?_⟩
    intro responses given
    rw [show responses = _ from mem_singleton.mp given]
    exact refinable _ (mem_map.mpr ⟨(order, position), mem_zipIdx_iff_getElem?.mpr placed, rfl⟩)

end WorkerPoolRouter

/-! ## Two orders -/

section Samples

/-- What a router of the samples needs to serve a request. -/
theorem serves_of_calm {router : WorkerPoolRouter Unit} {request : QuoteRequest Unit ℚ}
    {options : EncodingOptions Unit ℚ} {task : OrderQuote Unit → EncodingTask Unit ℚ}
    {solveOrder : Nat → Order → Allocation → OrderResponses Unit}
    (encodes : request.encodingOptions = some options)
    (allocated : (router.allocateOrders request .denied).toOption.isSome = true)
    (publicOnly : (router.allocation request .denied).exclusiveRoutingActive = false)
    (guarded : router.Guarded options) (deployed : router.encoder.routerAddress.isSome = true)
    (fronted : options.jitRouter = false) (inTime : ∀ quote, (task quote).late = false)
    (calm : ∀ responses ∈ router.answersOf request .denied solveOrder,
      ∀ quote ∈ router.candidatesOf request options responses,
        (router.encoder.runTask options router.routerFees false (task quote) quote).panics =
          false) :
    router.Serves request .denied options solveOrder (fun _ => true) task where
  encodes := encodes
  allocated := ⟨_, eq_ok_okValue allocated⟩
  publicOnly := publicOnly
  guarded := guarded
  alone :=
    { deployed := deployed
      fronted := fun asked => (by rw [fronted] at asked; cases asked)
      calm := fun quote ⟨responses, given, candidate⟩ _ => calm responses given quote candidate
      inTime := inTime
      budget := fun _ => rfl }

def encodesEach (_ : OrderQuote Unit) : EncodingTask Unit ℚ := taskWith encodedSwap

/-- A router with a guard whose one source expects 1000 for every quote. -/
def guardedRouter : WorkerPoolRouter Unit :=
  { sampleRouter with priceGuard := some ⟨[fun _ _ _ _ => .ok 1000]⟩ }

/-- Encoding behind the guard, with one percent of tolerance above the price. -/
def guardedOptions : EncodingOptions Unit ℚ :=
  { sampleOptions with priceGuard := { enabled := true, upperToleranceBps := 100 } }

/-- The two orders of the sample request, to be encoded behind the guard. -/
def guardedRequest : QuoteRequest Unit ℚ :=
  { sampleRequest with encodingOptions := some guardedOptions }

def quoteOf (amountOut : Nat) : OrderQuote Unit :=
  { plainQuote with amountOut := amountOut, amountOutNetGas := amountOut - 10 }

/-- The public pool answers the first order with three quotes and the second with one. -/
def threeAnswers (position : Nat) (_ : Order) (_ : Allocation) : OrderResponses Unit where
  quotes := (if position = 0 then [quoteOf 5000, quoteOf 1000, quoteOf 1005]
    else [quoteOf 1000]).map fun quote => ⟨"public", quote⟩
  failedSolvers := []

def refusesOne (quote : OrderQuote Unit) : EncodingTask Unit ℚ :=
  taskWith (if quote.amountOut = 1005 then refusal else encodedSwap)

/-- Of the first order's quotes the guard takes out the best, the next one is refused, and the third
is encoded. -/
theorem guarded_quotes_selected :
    guardedRouter.SelectsBestFirst guardedRequest .denied guardedOptions threeAnswers
        (fun _ => true) refusesOne ∧
      ∃ quotes, guardedRouter.quoteOrders guardedRequest .denied threeAnswers (fun _ => true)
          (fun _ _ => refusesOne) = .ok quotes ∧
        (quotes.map fun quote => (quote.status, quote.amountOut)) =
          [(.success, 1000), (.success, 1000)] := by
  have serves : guardedRouter.Serves guardedRequest .denied guardedOptions threeAnswers
      (fun _ => true) refusesOne :=
    serves_of_calm rfl (by decide +kernel) (by decide +kernel)
      (fun _ => ⟨_, rfl, cons_ne_nil _ _⟩) rfl rfl (fun _ => rfl) (by decide +kernel)
  refine ⟨(WorkerPoolRouter.selectsBestFirst_iff_refinable guardedRouter guardedRequest .denied
    guardedOptions threeAnswers (fun _ => true) refusesOne serves).mpr ?_,
      exists_ok_of_any (by decide +kernel)⟩
  intro responses given answer member _
  have listed : ∃ amountOut, answer.quote = quoteOf amountOut ∧
      amountOut ∈ [5000, 1000, 1005] := by
    obtain ⟨entry, _, rfl⟩ := mem_map.mp given
    obtain ⟨quote, inside, rfl⟩ := mem_map.mp member
    split at inside
    · simp only [mem_cons, not_mem_nil, or_false] at inside
      obtain rfl | rfl | rfl := inside <;> exact ⟨_, rfl, by simp⟩
    · exact ⟨1000, mem_singleton.mp inside, by simp⟩
  obtain ⟨amountOut, same, among⟩ := listed
  rw [same]
  simp only [mem_cons, not_mem_nil, or_false] at among
  obtain rfl | rfl | rfl := among <;>
    exact ⟨⟨_, eq_ok_okValue (by decide +kernel)⟩, fun _ => by decide, ⟨true, rfl⟩⟩

/-- Asked alone, the first order gets its quote. With a second order whose quote lacks its tokens
the request fails. -/
theorem tokenless_quote_denies_the_other_order :
    sampleRouter.Serves sampleRequest .denied sampleOptions
      (answersWith plainQuote tokenlessQuote) (fun _ => true) encodesEach ∧
    (∃ quotes, sampleRouter.quoteOrders { sampleRequest with orders := [⟨0, 1, 1000, .sell⟩] }
        .denied (fun _ => answersWith plainQuote tokenlessQuote 0) (fun _ => true)
        (fun _ _ => encodesEach) = .ok quotes ∧ quotes.map OrderQuote.status = [.success]) ∧
    ¬ sampleRouter.SelectsBestFirst sampleRequest .denied sampleOptions
      (answersWith plainQuote tokenlessQuote) (fun _ => true) encodesEach := by
  refine ⟨serves_of_calm rfl (by decide +kernel) (by decide +kernel) (fun never => nomatch never)
    rfl rfl (fun _ => rfl) (by decide +kernel), exists_ok_of_any (by decide +kernel), ?_⟩
  rintro ⟨quotes, answered, -, -⟩
  have failed : (sampleRouter.quoteOrders sampleRequest .denied
      (answersWith plainQuote tokenlessQuote) (fun _ => true)
      (fun _ _ => encodesEach)).toOption.isSome = false := by decide +kernel
  rw [answered] at failed
  cases failed

end Samples

end Fynd
