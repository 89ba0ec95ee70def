import Fynd.Split.BuiltRouteShape
import Fynd.Split.ReplayAgrees

/-!
# Which built routes are accepted

The shape of a built route is always accepted. What can fail is the fractions: a share that
rounds to nothing or to the whole is refused.
-/

namespace Fynd

open Foundation List

variable {P : Type}

/-! ## The fractions of a collection -/

/-- Shares that lie strictly between zero and one and add up to less than one. -/
def ProperShares (shares : List Binary64) : Prop :=
  (∀ share ∈ shares, share.le 0 = false ∧ share.ge 1 = false) ∧
    (shares.foldl Binary64.add 0).ge 1 = false

instance (shares : List Binary64) : Decidable (ProperShares shares) :=
  inferInstanceAs (Decidable (_ ∧ _))

section Fractions

variable {display : Address → String} {displaySplit : Binary64 → String} {tokenIn : Address}

variable {swaps : List (Swap P)} {shares : List Binary64}
  (splits : swaps.map Swap.split = shares ++ [0])
include splits

private theorem sumFractions_eq_ok_iff {i : Nat} {sum total : Binary64} :
    sumFractions display displaySplit tokenIn i sum swaps = .ok total ↔
      (∀ share ∈ shares, share.le 0 = false ∧ share.ge 1 = false) ∧
        total = shares.foldl Binary64.add sum := by
  induction shares generalizing swaps i sum with
  | nil =>
    obtain ⟨last, rfl, zero⟩ := map_eq_singleton_iff.mp splits
    have marked : last.split.eq 0 = true := by rw [zero]; decide
    rw [sumFractions, if_neg (by simp [marked]), Except.ok.injEq]
    exact ⟨fun same => ⟨by simp, same.symm⟩, fun same => same.2.symm⟩
  | cons share rest ih =>
    obtain ⟨swap, later, rfl, rfl, others⟩ := map_eq_cons_iff.mp splits
    cases later with
    | nil => simp at others
    | cons next later =>
      rw [sumFractions]
      · by_cases proper : swap.split.le 0 = false ∧ swap.split.ge 1 = false
        · rw [if_neg (by simp [proper.1, proper.2]), ih others]
          simp [proper.1, proper.2]
        · have refused : (swap.split.le 0 || swap.split.ge 1) = true := by
            simp only [Bool.or_eq_true]
            by_contra none
            exact proper (by simpa [not_or] using none)
          rw [if_pos refused]
          simp only [reduceCtorEq, forall_mem_cons, false_iff]
          exact fun ⟨⟨first, _⟩, _⟩ => proper first
      · simp

private theorem validateFractions_eq_ok_iff :
    validateFractions display displaySplit tokenIn swaps = .ok () ↔ ProperShares shares := by
  unfold validateFractions
  split
  · rename_i single
    obtain rfl : shares = [] := by
      have length := congrArg List.length splits
      simpa using length
    have marked : single.split.eq 0 = true := by
      rw [singleton_inj.mp splits]
      decide
    rw [if_neg (by simp [marked])]
    exact ⟨fun _ => by decide, fun _ => rfl⟩
  · rw [bind_eq_ok_iff]
    constructor
    · rintro ⟨sum, summed, below⟩
      obtain ⟨proper, rfl⟩ := (sumFractions_eq_ok_iff splits).mp summed
      refine ⟨proper, ?_⟩
      split at below
      · cases below
      · rename_i under
        simpa using under
    · rintro ⟨proper, below⟩
      refine ⟨_, (sumFractions_eq_ok_iff splits).mpr ⟨proper, rfl⟩, ?_⟩
      rw [if_neg (by simp [below])]

end Fractions

/-! ## Accepted routes -/

section Emitted

variable {display : Address → String} {displaySplit : Binary64 → String}
  {paths : List PathAllocation} {order : Order} {route : Route P} {releases : List (Release P)}

private theorem validateSplitAmounts_eq_ok_iff {collections : List (Address × List (Swap P))}
    (emitted : List.Forall₂ (Release.Emitted paths) releases collections) :
    validateSplitAmounts display displaySplit collections = .ok () ↔
      ∀ release ∈ releases, ProperShares (release.shares paths) := by
  rw [validateSplitAmounts, forM_eq_ok_iff]
  constructor
  · intro accepted release inReleases
    obtain ⟨collection, inside, own⟩ := exists_of_forall₂_right emitted.flip inReleases
    exact (validateFractions_eq_ok_iff own.splits).mp (accepted collection inside)
  · intro proper collection inside
    obtain ⟨release, inReleases, own⟩ := exists_of_forall₂_right emitted inside
    exact (validateFractions_eq_ok_iff own.splits).mpr (proper release inReleases)

variable (lists : ListsPaths paths order route)
  (listed : route.swaps = (branchCollections Swap.tokenIn route.swaps).flatMap Prod.snd)
  (emitted : List.Forall₂ (Release.Emitted paths) releases
    (branchCollections Swap.tokenIn route.swaps))
include listed emitted

private theorem isSplit_iff :
    route.isSplit = true ↔
      ∃ release ∈ releases, ∃ share ∈ release.shares paths, share.gt 0 = true := by
  rw [Route.isSplit, any_eq_true]
  constructor
  · rintro ⟨swap, member, positive⟩
    rw [listed] at member
    obtain ⟨collection, inside, here⟩ := mem_flatMap.mp member
    obtain ⟨release, inReleases, own⟩ := exists_of_forall₂_right emitted inside
    have split : swap.split ∈ release.shares paths ++ [0] := by
      rw [← own.splits]
      exact mem_map_of_mem here
    rcases mem_append.mp split with share | last
    · exact ⟨release, inReleases, swap.split, share, positive⟩
    · rw [mem_singleton.mp last] at positive
      exact absurd positive (by decide)
  · rintro ⟨release, inReleases, share, inShares, positive⟩
    obtain ⟨collection, inside, own⟩ := exists_of_forall₂_right emitted.flip inReleases
    have split : share ∈ collection.2.map Swap.split := by
      rw [own.splits]
      exact mem_append_left _ inShares
    obtain ⟨swap, here, rfl⟩ := mem_map.mp split
    refine ⟨swap, ?_, positive⟩
    rw [listed]
    exact mem_flatMap.mpr ⟨collection, inside, here⟩

include lists

private theorem ListsPaths.undivided_iff (last : Address) :
    (validateConnected route.swaps = .ok () ∧
        validateTokens order.tokenIn last [order.tokenIn] route.swaps = .ok ()) ↔
      ∀ release ∈ releases, release.shares paths = [] := by
  constructor
  · rintro ⟨connected, _⟩ release inReleases
    obtain ⟨collection, inside, own⟩ := exists_of_forall₂_right emitted.flip inReleases
    -- Two swaps of one collection stand next to each other, and the first does not pay its token.
    by_contra divided
    obtain ⟨share, shares, shape⟩ := exists_cons_of_ne_nil divided
    have splits := own.splits
    rw [shape, cons_append] at splits
    obtain ⟨first, others, firsts, _, rest⟩ := map_eq_cons_iff.mp splits
    obtain ⟨second, later, rfl⟩ : ∃ second later, others = second :: later := by
      cases others with
      | nil => simp at rest
      | cons second later => exact ⟨second, later, rfl⟩
    obtain ⟨before, after, place⟩ := append_of_mem inside
    have swaps : route.swaps = before.flatMap Prod.snd ++
        first :: second :: (later ++ after.flatMap Prod.snd) := by
      rw [listed, place, flatMap_append, flatMap_cons, firsts]
      simp
    have linked := linked_of_validateConnected (swaps ▸ connected)
    have takes := own.takes
    rw [firsts] at takes
    apply lists.ordered _ first _ swaps
    rw [map_cons, linked, takes second (by simp), ← takes first (by simp)]
    exact mem_cons_self
  · intro undivided
    apply lists.validateSequentialRoute
    intro left inLeft right inRight same
    have collected := collected_branchCollections Swap.tokenIn route.swaps
    obtain ⟨collection, inside, key⟩ :=
      mem_map.mp ((collected.keys left.tokenIn).mpr (mem_map_of_mem inLeft))
    obtain ⟨release, inReleases, own⟩ := exists_of_forall₂_right emitted inside
    have splits := own.splits
    rw [undivided release inReleases, nil_append] at splits
    obtain ⟨only, single, _⟩ := map_eq_singleton_iff.mp splits
    have filed := collected.filed collection inside
    rw [single, key] at filed
    have inFirst : left ∈ [only] := by
      rw [filed, mem_filter]
      exact ⟨inLeft, by simp⟩
    have inSecond : right ∈ [only] := by
      rw [filed, mem_filter]
      exact ⟨inRight, by simp [same]⟩
    rw [mem_singleton.mp inFirst, mem_singleton.mp inSecond]

private theorem ListsPaths.divided_iff {first last : Swap P}
    (starts : first.tokenIn = order.tokenIn) (ends : last.tokenOut = order.tokenOut) :
    Route.validateSplitRoute display displaySplit route.swaps first last = .ok () ↔
      ∀ release ∈ releases, ProperShares (release.shares paths) := by
  rw [← validateSplitAmounts_eq_ok_iff emitted, Route.validateSplitRoute]
  rw [starts, ends, lists.validateBfsConnectivity, lists.validateDeadEnds listed,
    lists.validateCycles listed ?_]
  · rw [bind_eq_ok_iff]
    exact ⟨fun ⟨_, accepted, _⟩ => accepted, fun accepted => ⟨(), accepted, rfl⟩⟩
  · intro collection inside
    obtain ⟨release, _, own⟩ := exists_of_forall₂_right emitted inside
    exact own.nonempty

end Emitted

section Valid

variable [ProtocolSim P] {display : Address → String} {displaySplit : Binary64 → String}
  {symbol : Token → String} {paths : List PathAllocation} {market : MarketState P}
  {order : Order} {route : Route P}

variable (symbol paths market order) in
/-- Every token that the plan of an order divides is divided into proper shares, and if one is
divided, some share is positive. -/
structure DividesProperly : Prop where
  proper : ∀ release ∈ splitReleases symbol paths market ∅ .keep order.tokenIn order.amount,
    ProperShares (release.shares paths)
  positive : (∀ release ∈ splitReleases symbol paths market ∅ .keep order.tokenIn order.amount,
      release.shares paths = []) ∨
    ∃ release ∈ splitReleases symbol paths market ∅ .keep order.tokenIn order.amount,
      ∃ share ∈ release.shares paths, share.gt 0 = true

/-- **A built route is accepted, and takes what was allocated, exactly if the plan divides
properly and the amounts add up to the order.** -/
theorem validates_iff_dividesProperly (simple : SimplePaths order.tokenIn order.tokenOut paths)
    (built : buildSplitRoute display symbol paths market order = .ok route) :
    (route.validate display displaySplit = .ok () ∧
        route.inputAmount = some (paths.map PathAllocation.amountIn).sum) ↔
      DividesProperly symbol paths market order ∧
        (paths.map PathAllocation.amountIn).sum = order.amount := by
  obtain ⟨execution, executed, emits, nonempty⟩ := buildSplitRoute_eq_ok built
  have lists := listsPaths_of_built simple executed emits nonempty
  obtain ⟨listed, emitted⟩ := collections_of_built executed emits
  obtain ⟨first, starts, takes⟩ := Option.map_eq_some_iff.mp lists.input
  obtain ⟨last, ends, pays⟩ := Option.map_eq_some_iff.mp lists.output
  have accepted : route.validate display displaySplit = .ok () ↔
      DividesProperly symbol paths market order := by
    rw [Route.validate, starts, ends]
    dsimp only
    by_cases split : route.isSplit = true
    · have positive := (isSplit_iff listed emitted).mp split
      rw [if_pos split, lists.divided_iff listed emitted takes pays]
      exact ⟨fun proper => ⟨proper, .inr positive⟩, DividesProperly.proper⟩
    · rw [if_neg split, Route.validateSequentialRoute, bind_eq_ok_iff, takes]
      have undivided := lists.undivided_iff listed emitted last.tokenOut
      constructor
      · rintro ⟨_, connected, tokens⟩
        have none := undivided.mp ⟨connected, tokens⟩
        refine ⟨fun release member => ?_, .inl none⟩
        rw [none release member]
        decide
      · intro divides
        have none := divides.positive.resolve_right (mt (isSplit_iff listed emitted).mpr split)
        exact ⟨(), undivided.mpr none⟩
  rw [accepted, inputAmount_of_built executed emits nonempty, Option.some.injEq]
  exact and_congr_right fun _ => eq_comm

end Valid

/-! ## Samples -/

/-- Two paths that share an order of three. -/
def twoShares : List PathAllocation := [allocated 2 [("a", 0, 1)], allocated 1 [("b", 0, 1)]]

/-- A path that carries the whole order of three, and one that carries nothing. -/
def wholeShare : List PathAllocation := [allocated 3 [("a", 0, 1)], allocated 0 [("b", 0, 1)]]

instance {P : Type} [ProtocolSim P] (symbol : Token → String)
    (paths : List PathAllocation) (market : MarketState P) (order : Order) :
    Decidable (DividesProperly symbol paths market order) :=
  decidable_of_iff (_ ∧ _) ⟨fun ⟨proper, positive⟩ => ⟨proper, positive⟩,
    fun divides => ⟨divides.proper, divides.positive⟩⟩

/-- An order divided in two is accepted. -/
theorem two_shares_are_accepted : ∃ route,
    buildSplitRoute toString (fun _ => "") twoShares parallelPools ⟨0, 1, 3, .sell⟩ = .ok route ∧
      route.validate toString (fun _ => "") = .ok () ∧ route.inputAmount = some 3 := by
  obtain ⟨route, built, _⟩ : ∃ route,
      buildSplitRoute toString (fun _ => "") twoShares parallelPools ⟨0, 1, 3, .sell⟩ =
        .ok route ∧ route.swaps.map Swap.amountIn = [1, 2] := exists_ok_of_any (by decide +kernel)
  exact ⟨route, built, (validates_iff_dividesProperly (by decide +kernel) built).mpr
    ⟨by decide +kernel, by decide⟩⟩

/-- A path that carries nothing gives the other one the fraction one, and the route is refused. -/
theorem whole_share_is_refused : SimplePaths 0 1 wholeShare ∧ ∃ route,
    buildSplitRoute toString (fun _ => "") wholeShare parallelPools ⟨0, 1, 3, .sell⟩ = .ok route ∧
      route.swaps.map Swap.amountIn = [3, 0] ∧ route.swaps.map Swap.split = [1, 0] ∧
        route.validate toString (fun _ => "") ≠ .ok () := by
  refine ⟨by decide +kernel, ?_⟩
  exact exists_ok_of_any (by decide +kernel)

end Fynd
