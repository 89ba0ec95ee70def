import Fynd.PostProcess.Replacement
import Fynd.Router.EncodeRetries

/-!
# The two replacers

One replacer puts a swap that quotes on request in place of a target. The other puts an
exclusive swap in its place, or lets it share the target with the swaps that are there, and
commits the route to a price against the route it was given.
-/

namespace Fynd

open Foundation

variable {P : Type}

section Finders

variable [ProtocolSim P]

/-! ## Quotes on request -/

/-- Whether the signed quotes of a protocol can be filled in part. -/
def fillsPartially (protocolSystem : String) : Bool :=
  ["rfq:bebop", "rfq:hashflow", "rfq:native"].contains (stripFallback protocolSystem)

/-- Replaces a target with one swap that quotes on request. One that cannot be filled in part must
start at the input of the order. -/
def rfqReplacementFinder : ReplacementFinder P where
  canReplaceTarget evaluator swap target routeSwaps :=
    (fillsPartially swap.protocol || target.tokenIn = evaluator.inputToken) &&
      canReplace swap target routeSwaps
  findBestReplacementRoute evaluator swap target routeSwaps minNetAmountOut readings :=
    (evaluator.replaceWithSwap swap target routeSwaps minNetAmountOut, readings)

/-! ## Exclusive swaps -/

/-- Commits a candidate to the amount that matches the original route. Its net output is never
above its output, so the subtraction of the two is safe. -/
def commitCandidate (userImprovementShareBps : Nat) (evaluator : RouteEvaluator P)
    (candidate : CandidateRoute P) : Option (CandidateRoute P) :=
  if exclusiveRouteShape candidate.swaps evaluator.outputToken ≠ .valid then none
  else
    (matchedCommitment ⟨evaluator.originalAmountOut, evaluator.original.netAmountOut.toNat⟩
      ⟨candidate.amountOut, candidate.netAmountOut.toNat⟩ userImprovementShareBps).join.map
        fun committed => { candidate with committedAmountOut := some committed }

/-- How often the search for a split narrows its range. -/
def splitSearchSteps : Nat := 8

/-- The ratio of the golden section. -/
def goldenRatioInverse : Binary64 := 0.618033988749895

/-- A swap of the target that takes the target's input, by its place among the swaps of the split,
with its split on the route. -/
structure EntrySwapSplit where
  swapIndex : Nat
  originalSplit : Binary64

/-- The part of the input of a target that its entry swaps hold: the sum of their splits, or what
the swaps outside the target leave. -/
def entriesShare (entries : List EntrySwapSplit) (target : ReplacementTarget)
    (routeSwaps : List (Swap P)) : Binary64 :=
  if entries.all fun entry => entry.originalSplit.gt 0 then
    entries.foldl (fun share entry => share.add entry.originalSplit) 0
  else
    Binary64.sub 1 ((routeSwaps.zipIdx.filter fun entry =>
      !target.replacedIndices.contains entry.2 && entry.1.tokenIn = target.tokenIn).foldl
        (fun others entry => others.add entry.1.split) 0)

/-- A search for the part of a target that an exclusive swap should take. -/
structure SplitSearcher (P : Type) where
  target : ReplacementTarget
  swaps : List (Swap P)
  evaluator : RouteEvaluator P
  /-- The exclusive swap, then the swaps of the target. -/
  splitSwaps : List (Swap P)
  entries : List EntrySwapSplit
  share : Binary64
  minSplitNetAmountOut : Int

/-- The range of a search, two fractions inside it with what they net, the best candidate so far,
and the readings of the clock that are left. -/
structure SplitRange (P : Type) where
  minFraction : Binary64
  maxFraction : Binary64
  lowerFraction : Binary64
  upperFraction : Binary64
  lowerNet : Option Int
  upperNet : Option Int
  best : Option (CandidateRoute P)
  readings : Nat

namespace SplitSearcher

/-- Prepares a search, if the target holds a part of its input. -/
def new (evaluator : RouteEvaluator P) (swap : Swap P) (target : ReplacementTarget)
    (routeSwaps : List (Swap P)) (minSplitNetAmountOut : Int) : Option (SplitSearcher P) := do
  let originals ← target.replacedIndices.mapM fun index => routeSwaps[index]?
  let entries := (originals.zipIdx 1).filterMap fun entry =>
    if entry.1.tokenIn = target.tokenIn then some ⟨entry.2, entry.1.split⟩ else none
  let share := entriesShare entries target routeSwaps
  if share.le 0 then none
  else return {
    target := target, swaps := routeSwaps, evaluator := evaluator
    splitSwaps := swap :: originals, entries := entries, share := share
    minSplitNetAmountOut := minSplitNetAmountOut }

/-- Gives the exclusive swap a fraction of the share. Each entry swap keeps the rest of its split,
or takes the remainder as before. -/
def retargetSplitSwaps (searcher : SplitSearcher P) (exclusiveFraction : Binary64) :
    List (Swap P) :=
  let exclusive := searcher.splitSwaps.modify 0 fun swap =>
    swap.retarget searcher.target.tokenIn searcher.target.tokenOut
      (searcher.share.mul exclusiveFraction)
  searcher.entries.foldl (fun swaps entry =>
    if entry.originalSplit.le 0 then swaps
    else swaps.modify entry.swapIndex fun swap =>
      swap.retarget swap.tokenIn swap.tokenOut
        (entry.originalSplit.mul (Binary64.sub 1 exclusiveFraction))) exclusive

/-- Simulates a split, and keeps it if it is the best so far. After the deadline nothing is
simulated. -/
def simulateSplit (searcher : SplitSearcher P) (exclusiveFraction : Binary64)
    (best : Option (CandidateRoute P)) (readings : Nat) :
    Option Int × Option (CandidateRoute P) × Nat :=
  if readings = 0 then (none, best, 0)
  else
    match searcher.evaluator.simulateReplacement searcher.swaps searcher.target
        (searcher.retargetSplitSwaps exclusiveFraction) with
    | none => (none, best, readings - 1)
    | some candidate =>
      let bestNet := best.elim searcher.minSplitNetAmountOut CandidateRoute.netAmountOut
      (some candidate.netAmountOut,
        if bestNet < candidate.netAmountOut then some candidate else best, readings - 1)

/-- The lower of the two fractions inside a range. -/
def lowerOf (minFraction maxFraction : Binary64) : Binary64 :=
  maxFraction.sub (goldenRatioInverse.mul (maxFraction.sub minFraction))

/-- The upper of the two fractions inside a range. -/
def upperOf (minFraction maxFraction : Binary64) : Binary64 :=
  minFraction.add (goldenRatioInverse.mul (maxFraction.sub minFraction))

/-- Whether a net output is no less than another. One that could not be simulated is the least. -/
def netsNoLess : Option Int → Option Int → Bool
  | _, none => true
  | none, some _ => false
  | some left, some right => right ≤ left

/-- Drops the worse end of a range. -/
def narrow (searcher : SplitSearcher P) (range : SplitRange P) : SplitRange P :=
  if netsNoLess range.lowerNet range.upperNet then
    let lowerFraction := lowerOf range.minFraction range.upperFraction
    let simulated := searcher.simulateSplit lowerFraction range.best range.readings
    { range with
      maxFraction := range.upperFraction
      upperFraction := range.lowerFraction
      upperNet := range.lowerNet
      lowerFraction := lowerFraction
      lowerNet := simulated.1
      best := simulated.2.1
      readings := simulated.2.2 }
  else
    let upperFraction := upperOf range.lowerFraction range.maxFraction
    let simulated := searcher.simulateSplit upperFraction range.best range.readings
    { range with
      minFraction := range.lowerFraction
      lowerFraction := range.upperFraction
      lowerNet := range.upperNet
      upperFraction := upperFraction
      upperNet := simulated.1
      best := simulated.2.1
      readings := simulated.2.2 }

/-- The whole range with its two fractions simulated. -/
def wholeRange (searcher : SplitSearcher P) (readings : Nat) : SplitRange P :=
  let lower := searcher.simulateSplit (lowerOf 0 1) none readings
  let upper := searcher.simulateSplit (upperOf 0 1) lower.2.1 lower.2.2
  { minFraction := 0, maxFraction := 1, lowerFraction := lowerOf 0 1, upperFraction := upperOf 0 1
    lowerNet := lower.1, upperNet := upper.1, best := upper.2.1, readings := upper.2.2 }

/-- The split that nets most, committed. -/
def findBestSplitRoute (userImprovementShareBps : Nat) (searcher : SplitSearcher P)
    (readings : Nat) : Option (CandidateRoute P) × Nat :=
  let range := searcher.narrow^[splitSearchSteps] (searcher.wholeRange readings)
  (range.best.bind (commitCandidate userImprovementShareBps searcher.evaluator), range.readings)

end SplitSearcher

/-- Replaces a target with one exclusive swap, or lets it share the target with the swaps that are
there. The route must have no exclusive leg yet. -/
def exclusiveReplacementFinder (userImprovementShareBps : Nat) : ReplacementFinder P where
  canReplaceTarget _ swap target routeSwaps :=
    !routesThroughExclusive routeSwaps && canReplace swap target routeSwaps
  findBestReplacementRoute evaluator swap target routeSwaps minNetAmountOut readings :=
    let full := (evaluator.replaceWithSwap swap target routeSwaps minNetAmountOut).bind
      (commitCandidate userImprovementShareBps evaluator)
    let minSplitNetAmountOut := full.elim minNetAmountOut CandidateRoute.netAmountOut
    match SplitSearcher.new evaluator swap target routeSwaps minSplitNetAmountOut with
    | none => (full, readings)
    | some searcher =>
      let split := searcher.findBestSplitRoute userImprovementShareBps readings
      (split.1.or full, split.2)

/-! ## What the finders return -/

variable {userImprovementShareBps : Nat} {evaluator : RouteEvaluator P}
  {swap : Swap P} {target : ReplacementTarget} {routeSwaps : List (Swap P)}
  {minNetAmountOut : Int} {readings : Nat} {candidate committed : CandidateRoute P}

omit [ProtocolSim P] in
private theorem committed_of_commitCandidate {found : Option (CandidateRoute P)}
    (done : found.bind (commitCandidate userImprovementShareBps evaluator) = some committed) :
    committed.committedAmountOut.isSome = true := by
  obtain ⟨candidate, _, done⟩ := Option.bind_eq_some_iff.mp done
  unfold commitCandidate at done
  split at done
  · cases done
  · obtain ⟨amount, _, rfl⟩ := Option.map_eq_some_iff.mp done
    rfl

theorem committed_of_exclusiveReplacementFinder
    (found : ((exclusiveReplacementFinder userImprovementShareBps).findBestReplacementRoute
      evaluator swap target routeSwaps minNetAmountOut readings).1 = some candidate) :
    candidate.committedAmountOut.isSome = true := by
  dsimp only [exclusiveReplacementFinder] at found
  split at found
  · exact committed_of_commitCandidate found
  · obtain split | ⟨_, full⟩ := Option.or_eq_some_iff.mp found
    · exact committed_of_commitCandidate split
    · exact committed_of_commitCandidate full

/-- A route with a swap that quotes on request goes through its component and those that were
there. -/
theorem component_of_rfqReplacementFinder
    (found : (rfqReplacementFinder.findBestReplacementRoute evaluator swap target routeSwaps
      minNetAmountOut readings).1 = some candidate)
    {used : Swap P} (member : used ∈ candidate.swaps) :
    used.protocolComponent = swap.protocolComponent ∨
      ∃ other ∈ routeSwaps, used.protocolComponent = other.protocolComponent := by
  obtain ⟨simulated, _⟩ := Option.filter_eq_some_iff.mp found
  obtain ⟨_, _, rfl⟩ := Option.map_eq_some_iff.mp simulated
  obtain ⟨entry, zipped, rfl⟩ := List.mem_map.mp member
  rcases mem_of_mem_replaceTargetSwaps (List.of_mem_zip zipped).1 with here | there
  · have same := congrArg Swap.protocolComponent (List.mem_singleton.mp here)
    exact .inl same
  · exact .inr ⟨entry.1, there, rfl⟩

end Finders

end Fynd
