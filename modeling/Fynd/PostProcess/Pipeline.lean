import Fynd.PostProcess.Replacers

/-!
# The post-processors of a worker

A worker pool lists post-processors by name. Its workers run them in that order on the route
their algorithm returned, each on the last route that was returned before it. The replacer of
exclusive swaps must be the last of the list.
-/

namespace Fynd

open Foundation List

variable {P : Type}

/-! ## The list of a worker pool -/

/-- The post-processors that are built in. -/
inductive BuiltIn
  | rfqSwapReplacer
  | exclusiveSwapReplacer
  deriving DecidableEq, Repr

/-- The name that a configuration lists. -/
def BuiltIn.name : BuiltIn → String
  | .rfqSwapReplacer => "rfq_swap_replacer"
  | .exclusiveSwapReplacer => "exclusive_swap_replacer"

/-- A worker pool lists a post-processor after the one that must be last. -/
structure PostProcessorOrderError where
  workerPool : String
  postProcessorName : String
  followedBy : String
  deriving DecidableEq, Repr

/-- Checks that nothing follows the replacer of exclusive swaps. -/
def checkPostProcessorOrder (workerPool : String) (names : List String) :
    Except PostProcessorOrderError Unit :=
  ((names.zip (names.drop 1)).find? fun pair =>
      pair.1 = BuiltIn.exclusiveSwapReplacer.name).elim (.ok ())
    fun pair => .error ⟨workerPool, pair.1, pair.2⟩

/-- In a list that is accepted only the replacer of swaps that quote on request is followed by
another. -/
theorem isChain_of_checkPostProcessorOrder {workerPool : String} {kinds : List BuiltIn}
    (accepted : checkPostProcessorOrder workerPool (kinds.map BuiltIn.name) = .ok ()) :
    kinds.IsChain fun first _ => first = .rfqSwapReplacer := by
  unfold checkPostProcessorOrder at accepted
  rw [find?_elim_eq_ok_iff] at accepted
  induction kinds with
  | nil => exact .nil
  | cons first rest ih =>
    cases rest with
    | nil => exact .singleton first
    | cons next rest =>
      refine .cons_cons ?_ (ih fun pair member => accepted pair (mem_cons_of_mem _ member))
      cases first with
      | rfqSwapReplacer => rfl
      | exclusiveSwapReplacer =>
        exact absurd (decide_eq_true rfl)
          (accepted (BuiltIn.exclusiveSwapReplacer.name, next.name) mem_cons_self)

/-! ## One post-processor -/

/-- A post-processor of a worker, with the components it indexed. -/
structure PostProcessor where
  kind : BuiltIn
  index : ReplacementComponentIndex

/-- What the outside does while a post-processor has its turn: whether the deadline passed before it
could start or while it waited, what it reads of the market, and how often it reads the clock
before the deadline. -/
structure Turn (P : Type) where
  late : Bool := false
  timesOut : Bool := false
  market : Except String (MarketView P)
  readings : Nat

/-- Post-processors in their order, each with its turn. -/
abbrev Turns (P : Type) := List (PostProcessor × Turn P)

section Processing

variable [ProtocolSim P] {userImprovementShareBps : Nat} {request : PostProcessRequest}
  {turn : Turn P} {route result : RouteResult P}

/-- Searches a route for replacements through the indexed components. -/
def searchRoute (finder : ReplacementFinder P) (index : ReplacementComponentIndex)
    (request : PostProcessRequest) (turn : Turn P) (route : RouteResult P) :
    Option (RouteResult P) := do
  let view ← turn.market.toOption
  let liquidity := ReplacementLiquidity.fromMarketForRoute index view request route.route
  let solver ← ReplacementSolver.new liquidity request route finder
  solver.applyBestReplacements turn.readings

/-- The route to quote in place of a route, if there is a better one. -/
def PostProcessor.process (userImprovementShareBps : Nat) (processor : PostProcessor)
    (request : PostProcessRequest) (turn : Turn P) (route : RouteResult P) :
    Option (RouteResult P) :=
  match processor.kind with
  | .rfqSwapReplacer =>
    if processor.index.isEmpty || !request.order.isSell then none
    else searchRoute rfqReplacementFinder processor.index request turn route
  | .exclusiveSwapReplacer =>
    if request.exclusiveAccess ≠ .granted || processor.index.isEmpty ||
        !request.order.isSell || routesThroughExclusive route.route.swaps then none
    else searchRoute (exclusiveReplacementFinder userImprovementShareBps) processor.index request
      turn route

/-- What a search returns nets more, and has what every replacement keeps. -/
theorem searchRoute_eq_some {finder : ReplacementFinder P} {index : ReplacementComponentIndex}
    (holds : List (Swap P) → Option Nat → Prop)
    (keeps : ∀ view, turn.market = .ok view → ∀ solver : ReplacementSolver P,
      solver.finder = finder →
      solver.swaps =
        (ReplacementLiquidity.fromMarketForRoute index view request route.route).swaps →
      ∀ swaps committed candidate, holds swaps committed → solver.Finds swaps candidate →
        holds candidate.swaps candidate.committedAmountOut) (begins : holds route.route.swaps none)
    (done : searchRoute finder index request turn route = some result) :
    route.netAmountOut < result.netAmountOut ∧
      holds result.route.swaps (result.commitment.map Commitment.committedAmountOut) := by
  obtain ⟨view, read, done⟩ := Option.bind_eq_some_iff.mp done
  obtain ⟨solver, prepared, done⟩ := Option.bind_eq_some_iff.mp done
  obtain ⟨original, found, listed⟩ := ReplacementSolver.new_eq_some prepared
  have kept := ReplacementSolver.applyBestReplacements_eq_some holds
    (keeps view (eq_ok_of_toOption read) solver found listed) (original.symm ▸ begins) done
  rwa [original] at kept

/-- A replacer of swaps that quote on request that reads no exclusive component which the pool would
keep. -/
def PostProcessor.UsesPublic (processor : PostProcessor) (request : PostProcessRequest)
    (turn : Turn P) : Prop :=
  processor.kind = .rfqSwapReplacer → ∀ view, turn.market = .ok view →
    ∀ id component, processor.index.Lists id → view.getComponent id = some component →
      request.dropsComponent component = false → isExclusive component = false

section

variable {processor : PostProcessor}
  (done : processor.process userImprovementShareBps request turn route = some result)
include done

private theorem PostProcessor.netAmountOut_lt_of_process :
    route.netAmountOut < result.netAmountOut := by
  have searched : ∃ finder, searchRoute finder processor.index request turn route =
      some result := by
    unfold process at done
    split at done
    all_goals
      split at done
      · cases done
      · exact ⟨_, done⟩
  obtain ⟨finder, found⟩ := searched
  exact (searchRoute_eq_some (fun _ _ => True) (fun _ _ _ _ _ _ _ _ _ _ => trivial) trivial found).1

private theorem PostProcessor.committed_of_process (kind : processor.kind = .exclusiveSwapReplacer)
    (leg : routesThroughExclusive result.route.swaps = true) : result.commitment.isSome = true := by
  unfold process at done
  rw [kind] at done
  dsimp only at done
  split at done
  · cases done
  · rename_i allowed
    have plain : routesThroughExclusive route.route.swaps = false := by
      simp only [Bool.or_eq_true, not_or] at allowed
      exact Bool.eq_false_iff.mpr allowed.2
    have kept := (searchRoute_eq_some
      (fun swaps committed => routesThroughExclusive swaps = true → committed.isSome = true) ?_ ?_
      done).2 leg
    · rwa [Option.isSome_map] at kept
    · rintro view _ solver finder _ swaps committed candidate _ ⟨target, swap, _, _, net, readings,
        found⟩ _
      rw [finder] at found
      exact committed_of_exclusiveReplacementFinder found
    · intro exclusive
      rw [plain] at exclusive
      cases exclusive

private theorem PostProcessor.public_of_process (kind : processor.kind = .rfqSwapReplacer)
    (uses : processor.UsesPublic request turn)
    (plain : routesThroughExclusive route.route.swaps = false) :
    routesThroughExclusive result.route.swaps = false := by
  unfold process at done
  rw [kind] at done
  dsimp only at done
  split at done
  · cases done
  · refine (searchRoute_eq_some (fun swaps _ => routesThroughExclusive swaps = false) ?_ plain
      done).2
    rintro view read solver finder listed swaps _ candidate before ⟨target, swap, member, _, net,
      readings, found⟩
    rw [finder] at found
    rw [listed] at member
    obtain ⟨id, touching, made⟩ := mem_filterMap.mp member
    obtain ⟨known, kept⟩ := unusedSwap_eq_some made
    have open_ := uses kind view read id _
      (ReplacementComponentIndex.lists_of_mem_findTouching touching) known kept
    unfold routesThroughExclusive at before ⊢
    rw [any_eq_false] at before ⊢
    intro used inside
    obtain same | ⟨other, there, same⟩ := component_of_rfqReplacementFinder found inside
    · rw [isExclusiveLeg, same, open_]
      exact Bool.false_ne_true
    · rw [isExclusiveLeg, same]
      exact before other there

end

/-! ## The run -/

/-- The route a run ends with, and the names of the post-processors that returned one. -/
structure ProcessedRoute (P : Type) where
  route : RouteResult P
  postProcessedBy : List String

/-- What a run has come to: the last route returned, if any, and who returned one. -/
structure Progress (P : Type) where
  latest : Option (RouteResult P) := none
  postProcessedBy : List String := []

/-- Runs post-processors in order, each on the last route returned before it. At the deadline the
rest is skipped. -/
def runFrom (userImprovementShareBps : Nat) (request : PostProcessRequest) (route : RouteResult P) :
    Turns P → Progress P → Progress P
  | [], progress => progress
  | (processor, turn) :: rest, progress =>
    if turn.late then progress
    else
      let returned := if turn.timesOut then none
        else processor.process userImprovementShareBps request turn
          (progress.latest.getD route)
      runFrom userImprovementShareBps request route rest
        (returned.elim progress fun replacement =>
          { latest := some replacement
            postProcessedBy := progress.postProcessedBy ++ [processor.kind.name] })

/-- Runs the post-processors of a worker on a route. -/
def runPostProcessors (userImprovementShareBps : Nat) (request : PostProcessRequest)
    (instances : Turns P) (route : RouteResult P) : Option (ProcessedRoute P) :=
  let final := runFrom userImprovementShareBps request route instances {}
  final.latest.map fun latest => ⟨latest, final.postProcessedBy⟩

/-- A run that has returned a route has one from then on, and the route at hand never nets less. -/
structure Progress.Precedes (route : RouteResult P) (before after : Progress P) : Prop where
  returned : before.latest.isSome = true → after.latest.isSome = true
  nets : (before.latest.getD route).netAmountOut ≤ (after.latest.getD route).netAmountOut

omit [ProtocolSim P] in
private theorem Progress.Precedes.refl (progress : Progress P) : progress.Precedes route progress :=
  ⟨id, le_refl _⟩

theorem precedes_runFrom (instances : Turns P) (progress : Progress P) :
    progress.Precedes route
      (runFrom userImprovementShareBps request route instances progress) := by
  induction instances generalizing progress with
  | nil => exact .refl progress
  | cons entry rest ih =>
    obtain ⟨processor, turn⟩ := entry
    rw [runFrom]
    split
    · exact .refl progress
    · cases returned : (if turn.timesOut then none else processor.process
        userImprovementShareBps request turn (progress.latest.getD route)) with
      | none => exact ih progress
      | some replacement =>
        split at returned
        · cases returned
        · have later := ih { latest := some replacement, postProcessedBy :=
            progress.postProcessedBy ++ [processor.kind.name] }
          exact ⟨fun _ => later.returned rfl,
            (PostProcessor.netAmountOut_lt_of_process returned).le.trans later.nets⟩

theorem precedes_take_runFrom (instances : Turns P) (count : Nat) (progress : Progress P) :
    (runFrom userImprovementShareBps request route (instances.take count) progress).Precedes route
      (runFrom userImprovementShareBps request route instances progress) := by
  induction instances generalizing count progress with
  | nil =>
    rw [take_nil]
    exact .refl _
  | cons entry rest ih =>
    cases count with
    | zero => exact precedes_runFrom _ progress
    | succ count =>
      rw [take_succ_cons, runFrom, runFrom]
      split
      · exact .refl progress
      · exact ih count _

variable {instances : Turns P} {progress : Progress P}

/-- **Exclusive legs are committed.** From a route without an exclusive leg a run leads to routes
without one, or to a route that is committed. -/
theorem committed_of_runFrom
    (chain : (instances.map fun entry => entry.1.kind).IsChain
      fun first _ => first = .rfqSwapReplacer)
    (uses : ∀ entry ∈ instances, entry.1.UsesPublic request entry.2)
    (plain : routesThroughExclusive (progress.latest.getD route).route.swaps = false)
    {latest : RouteResult P}
    (ends : (runFrom userImprovementShareBps request route instances progress).latest = some latest)
    (leg : routesThroughExclusive latest.route.swaps = true) :
    latest.commitment.isSome = true := by
  induction instances generalizing progress with
  | nil =>
    rw [runFrom] at ends
    rw [ends, Option.getD_some, leg] at plain
    cases plain
  | cons entry rest ih =>
    obtain ⟨processor, turn⟩ := entry
    have later : ∀ entry ∈ rest, entry.1.UsesPublic request entry.2 :=
      fun entry member => uses entry (mem_cons_of_mem _ member)
    rw [runFrom] at ends
    split at ends
    · rw [ends, Option.getD_some, leg] at plain
      cases plain
    · dsimp only at ends
      cases returned : (if turn.timesOut then none else processor.process
        userImprovementShareBps request turn (progress.latest.getD route)) with
      | none =>
        rw [returned] at ends
        exact ih chain.tail later plain ends
      | some replacement =>
        rw [returned] at ends
        split at returned
        · cases returned
        · cases kind : processor.kind with
          | rfqSwapReplacer =>
            exact ih chain.tail later (PostProcessor.public_of_process returned kind
              (uses _ mem_cons_self) plain) ends
          | exclusiveSwapReplacer =>
            cases rest with
            | nil =>
              cases ends
              exact PostProcessor.committed_of_process returned kind leg
            | cons next rest =>
              have first : processor.kind = .rfqSwapReplacer := chain.rel
              rw [kind] at first
              cases first

end Processing

end Fynd
