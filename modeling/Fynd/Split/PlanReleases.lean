import Fynd.Split.PlanConserves

/-!
# The tokens a split plan releases

A plan releases tokens one after another. Each release divides what stands at a token by the
amounts of the paths that stand there, the largest first, and runs the swaps that take it.
-/

namespace Fynd

open Foundation List

variable {P : Type}

/-! ## The shares of a division -/

/-- What swaps ask for, the largest first. -/
def askedAmounts (hops : List SplitSwap) : List Nat :=
  (hops.map SplitSwap.amountIn).insertionSort fun left right => right ≤ left

/-- The shares of a balance that swaps ask for. The smallest takes what is left. -/
def sharesOf (asked : List Nat) (balance : Nat) : List Binary64 :=
  asked.dropLast.map fun amount => shareOf amount balance

private theorem zipIdx_shares (swaps : List SplitSwap) (balance : Nat) (nonempty : swaps ≠ []) :
    (swaps.zipIdx.map fun (swap, ix) =>
        if ix = swaps.length - 1 then 0 else shareOf swap.amountIn balance) =
      sharesOf (swaps.map SplitSwap.amountIn) balance ++ [0] := by
  obtain ⟨front, last, rfl⟩ := eq_nil_or_concat swaps |>.resolve_left nonempty
  rw [concat_eq_append, zipIdx_append, map_append, sharesOf, map_append, map_singleton,
    dropLast_concat, map_map]
  congr 1
  · apply ext_getElem
    · simp
    · intro ix inside _
      have early : ix ≠ front.length := by
        simp only [length_map, length_zipIdx] at inside
        omega
      simp [early]
  · simp

private theorem splitsFromAmounts_shares {hops sized : List SplitSwap} {total : Nat}
    (divided : splitsFromAmounts hops total = .ok sized) (nonempty : hops ≠ []) :
    sized.map SplitSwap.split = sharesOf (askedAmounts hops) total ++ [0] ∧
      sized.dropLast.map SplitSwap.amountIn =
        sized.dropLast.map fun swap => (splitAmount total swap.split).1 := by
  unfold splitsFromAmounts at divided
  dsimp only at divided
  let ranked := hops.insertionSort fun left right => right.amountIn ≤ left.amountIn
  have sorted : ranked ≠ [] := by
    rw [← length_pos_iff, length_insertionSort]
    exact length_pos_iff.mpr nonempty
  have order : ranked.map SplitSwap.amountIn = askedAmounts hops :=
    map_insertionSort _ _ SplitSwap.amountIn hops fun _ _ _ _ => Iff.rfl
  have length : (sharesOf (askedAmounts hops) total ++ [0]).length = ranked.length := by
    rw [← order, ← zipIdx_shares _ _ sorted, length_map, length_zipIdx]
  rw [zipIdx_shares _ _ sorted, order] at divided
  split at divided
  · cases divided
  · rename_i amounts given
    have listed := (fractionsToAmounts_eq_ok given).1
    obtain ⟨_, splits, taken⟩ := map_resized length (listed.trans length) (Except.ok.inj divided)
    refine ⟨splits, ?_⟩
    calc sized.dropLast.map SplitSwap.amountIn
        = (sized.map SplitSwap.amountIn).dropLast := map_dropLast
      _ = (sized.map SplitSwap.split).dropLast.map fun split => (splitAmount total split).1 := by
          rw [taken, fractionsToAmounts_parts given, splits]
      _ = sized.dropLast.map fun swap => (splitAmount total swap.split).1 := by
          rw [← map_dropLast, map_map]
          rfl

/-! ## The releases of a run -/

/-- A token that is released: the plan with the token taken off its queue, and the merged swaps
that take the token. -/
structure Release (P : Type) where
  state : PlanState P
  token : Address
  branch : List SplitSwap

section Releases

variable [ProtocolSim P] (symbol : Token → String) (paths : List PathAllocation)
  (market : MarketState P) (baseOverrides : MarketOverrides P) (capture : StateCapture)

section

variable (release : Release P)

/-- What stands at the token. -/
def Release.balance : Nat :=
  balanceAt release.state.balances release.token

/-- The swaps of the branch, each with what the paths that stand at it carry. -/
def Release.asked : List Nat :=
  (release.branch.map fun swap => release.state.ledger.fedTotal
    (((release.state.ledger.standingAt paths release.token).lookup (hopKey swap.hop)).getD
      [])).insertionSort fun left right => right ≤ left

/-- The share of the balance that each swap but the smallest asks for. -/
def Release.shares : List Binary64 :=
  sharesOf (release.asked paths) release.balance

/-- The branch as it is divided. -/
def Release.sized : Except AlgorithmError (List SizedSwap) :=
  amountsForBranch release.branch (release.state.ledger.standingAt paths release.token)
    release.state.ledger release.balance

/-- The plan when the divided swaps are about to run. -/
def Release.opened (sized : List SizedSwap) : PlanState P :=
  { release.state with
    ledger := sized.foldl (fun ledger (swap, fed) => ledger.rescale fed swap.amountIn)
      release.state.ledger }

end

/-- The releases of a plan, in order. -/
def planReleases : Nat → PlanState P → List (Release P)
  | 0, _ => []
  | fuel + 1, state =>
    match state.ready with
    | [] => []
    | token :: ready =>
      match state.hopsByToken.lookup token with
      | none => planReleases fuel { state with ready := ready }
      | some branch =>
        let opened : PlanState P :=
          { state with ready := ready, hopsByToken := state.hopsByToken.erase token }
        ⟨opened, token, branch⟩ ::
          match runBranch symbol paths market baseOverrides capture opened token branch with
          | .ok next => planReleases fuel next
          | .error _ => []

variable {symbol paths market baseOverrides capture} {state final : PlanState P}

/-- **Induction over the releases of a run.** -/
theorem planReleases_induction {fuel : Nat} {motive : PlanState P → List (Release P) → Prop}
    (run : runReady symbol paths market baseOverrides capture fuel state = .ok final)
    (done : motive final [])
    (pass : ∀ state token ready releases, state.ready = token :: ready →
      motive { state with ready := ready } releases → motive state releases)
    (branches : ∀ state token ready branch sized next releases, state.ready = token :: ready →
      state.hopsByToken.lookup token = some branch →
      let release : Release P := ⟨{ state with
        ready := ready, hopsByToken := state.hopsByToken.erase token }, token, branch⟩
      release.sized paths = .ok sized →
      sized.foldlM (runSwap symbol market baseOverrides capture) (release.opened sized) =
        .ok next →
      motive next releases → motive state (release :: releases)) :
    motive state (planReleases symbol paths market baseOverrides capture fuel state) := by
  induction fuel generalizing state with
  | zero =>
    cases run
    exact done
  | succ fuel ih =>
    unfold runReady at run
    unfold planReleases
    cases released : state.ready with
    | nil =>
      rw [released] at run
      cases run
      exact done
    | cons token ready =>
      rw [released] at run
      dsimp only at run ⊢
      cases found : state.hopsByToken.lookup token with
      | none =>
        rw [found] at run
        exact pass state token ready _ released (ih run)
      | some branch =>
        rw [found] at run
        dsimp only at run ⊢
        obtain ⟨middle, ran, rest⟩ := bind_eq_ok_iff.mp run
        rw [ran]
        obtain ⟨sized, divided, swapped⟩ := bind_eq_ok_iff.mp ran
        exact branches state token ready branch sized middle _ released found divided swapped
          (ih rest)

/-! ## What a release runs -/

/-- What dividing the branch of a release gives. -/
structure Release.Divides (paths : List PathAllocation) (release : Release P)
    (sized : List SizedSwap) : Prop where
  hops : (sized.map fun swap => swap.1.hop).Perm (release.branch.map SplitSwap.hop)
  splits : (sized.map fun swap => swap.1.split) = release.shares paths ++ [0]
  parts : (sized.dropLast.map fun swap => swap.1.amountIn) =
    sized.dropLast.map fun swap => (splitAmount release.balance swap.1.split).1
  all : (sized.map fun swap => swap.1.amountIn).sum = release.balance

omit [ProtocolSim P] in
/-- A release that is sized divides its balance. -/
theorem Release.sized_eq_ok {release : Release P} {sized : List SizedSwap}
    (divided : release.sized paths = .ok sized) (nonempty : release.branch ≠ []) :
    release.Divides paths sized := by
  obtain ⟨hops, all⟩ := amountsForBranch_eq_ok divided
  rw [map_map] at hops all
  obtain ⟨asked, asks, rest⟩ := bind_eq_ok_iff.mp divided
  obtain ⟨parts, splits, paired⟩ := bind_eq_ok_iff.mp rest
  cases paired
  have asksFor := mapM_eq_ok_iff.mp asks
  have amounts : askedAmounts asked = release.asked paths := by
    rw [askedAmounts, Release.asked]
    congr 1
    refine (map_eq_map_of_forall₂ asksFor fun swap ask sizes => ?_).symm
    split at sizes
    · cases sizes
    · rename_i fed standing
      cases sizes
      rw [standing]
      rfl
  obtain ⟨shares, divides⟩ :=
    splitsFromAmounts_shares splits (ne_nil_of_forall₂ asksFor.flip nonempty)
  rw [amounts] at shares
  exact {
    hops := hops
    splits := by
      rw [map_map]
      exact shares
    parts := by
      rw [← map_dropLast, map_map, map_map]
      exact divides
    all := all }

/-- A swap that ran as it was sized. -/
structure RanAs (swap : SplitSwap) (executed : SimulatedSplitSwap P) : Prop where
  hop : executed.hop = swap.hop
  split : executed.split = swap.split
  amountIn : executed.amountIn = swap.amountIn

theorem ranAs_of_runSwaps {sized : List SizedSwap} {next : PlanState P}
    (run : sized.foldlM (runSwap symbol market baseOverrides capture) state = .ok next) :
    next.hopsByToken = state.hopsByToken ∧ ∃ group, next.swaps = state.swaps ++ group ∧
      List.Forall₂ RanAs (sized.map Prod.fst) group := by
  induction sized generalizing state with
  | nil =>
    cases run
    exact ⟨rfl, [], (append_nil _).symm, .nil⟩
  | cons swap rest ih =>
    rw [foldlM_cons] at run
    obtain ⟨middle, first, later⟩ := bind_eq_ok_iff.mp run
    obtain ⟨_, _, _, _, _, ran⟩ := runSwap_recorded first
    obtain ⟨kept, group, swaps, sameAs⟩ := ih later
    refine ⟨kept.trans ran.hopsByToken, _, ?_, .cons ⟨ran.hop, rfl, ran.amountIn⟩ sameAs⟩
    rw [swaps, ran.swaps, append_assoc, singleton_append]

/-- A group of swaps ran as the branch of a release was divided. -/
def Release.Runs (paths : List PathAllocation) (release : Release P)
    (group : List (SimulatedSplitSwap P)) : Prop :=
  ∃ sized, release.sized paths = .ok sized ∧ List.Forall₂ RanAs (sized.map Prod.fst) group

/-- The swaps of a run are those of the released branches, one branch after another, and no token
is released twice. -/
structure RunsReleases (paths : List PathAllocation) (state final : PlanState P)
    (releases : List (Release P)) : Prop where
  groups : ∃ groups, final.swaps = state.swaps ++ groups.flatten ∧
    List.Forall₂ (Release.Runs paths) releases groups
  distinct : (releases.map Release.token).Nodup
  branches : ∀ release ∈ releases,
    state.hopsByToken.lookup release.token = some release.branch

/-- **A plan is its releases.** -/
theorem runsReleases_of_runReady {fuel : Nat}
    (run : runReady symbol paths market baseOverrides capture fuel state = .ok final) :
    RunsReleases paths state final
      (planReleases symbol paths market baseOverrides capture fuel state) := by
  refine planReleases_induction (motive := fun state releases =>
    RunsReleases paths state final releases) run ?_ ?_ ?_
  · exact ⟨⟨[], by simp, .nil⟩, nodup_nil, by simp⟩
  · intro state token ready releases _ later
    exact { later with }
  · intro state token ready branch sized next releases _ found release divided swapped later
    obtain ⟨kept, group, swaps, sameAs⟩ := ranAs_of_runSwaps swapped
    obtain ⟨⟨groups, listed, runs⟩, distinct, branches⟩ := later
    have erased : next.hopsByToken = state.hopsByToken.erase token := kept
    have others : ∀ other ∈ releases, other.token ≠ token ∧
        state.hopsByToken.lookup other.token = some other.branch := by
      intro other member
      exact lookup_erase_eq_some (erased ▸ branches other member)
    refine ⟨⟨group :: groups, ?_, .cons ⟨sized, divided, sameAs⟩ runs⟩, ?_, ?_⟩
    · rw [listed, swaps, flatten_cons, append_assoc]
      rfl
    · rw [map_cons, nodup_cons]
      refine ⟨fun again => ?_, distinct⟩
      obtain ⟨other, member, same⟩ := mem_map.mp again
      exact (others other member).1 same
    · intro other member
      rcases mem_cons.mp member with rfl | listed
      · exact found
      · exact (others other listed).2

end Releases

/-! ## What a release spends -/

/-- A group of swaps that divides what stands at the token of a release. -/
structure Release.Spends (paths : List PathAllocation) (release : Release P)
    (group : List (SimulatedSplitSwap P)) : Prop where
  nonempty : group ≠ []
  takes : ∀ swap ∈ group, swap.hop.tokenIn.address = release.token
  splits : group.map SimulatedSplitSwap.split = release.shares paths ++ [0]
  all : (group.map SimulatedSplitSwap.amountIn).sum = release.balance

section Spends

variable {paths : List PathAllocation} {state final : PlanState P} {release : Release P}
  {releases : List (Release P)} {group : List (SimulatedSplitSwap P)}

private theorem map_of_ranAs {Value : Type} {sized : List SizedSwap} {asked : SplitSwap → Value}
    {recorded : SimulatedSplitSwap P → Value} (ran : List.Forall₂ RanAs (sized.map Prod.fst) group)
    (same : ∀ swap executed, RanAs swap executed → recorded executed = asked swap) :
    group.map recorded = sized.map fun swap => asked swap.1 := by
  rw [← map_eq_map_of_forall₂ ran fun swap executed as => (same swap executed as).symm, map_map]
  rfl

private theorem Release.Runs.spends (runs : release.Runs paths group)
    (nonempty : release.branch ≠ [])
    (takes : ∀ swap ∈ release.branch, swap.hop.tokenIn.address = release.token) :
    release.Spends paths group := by
  obtain ⟨sized, divided, ran⟩ := runs
  have divides := Release.sized_eq_ok divided nonempty
  have hops := map_of_ranAs ran fun _ _ as => as.hop
  exact {
    nonempty := by
      rw [← length_pos_iff, ← ran.length_eq, length_map]
      have length := divides.hops.length_eq
      rw [length_map, length_map] at length
      rw [length]
      exact length_pos_iff.mpr nonempty
    takes := by
      intro swap member
      have listed : swap.hop ∈ group.map SimulatedSplitSwap.hop := mem_map_of_mem member
      rw [hops] at listed
      obtain ⟨merged, inBranch, same⟩ := mem_map.mp (divides.hops.subset listed)
      rw [← same]
      exact takes merged inBranch
    splits := (map_of_ranAs ran fun _ _ as => as.split).trans divides.splits
    all := (congrArg List.sum (map_of_ranAs ran fun _ _ as => as.amountIn)).trans divides.all }

/-- The swaps of a run, by the releases that spend a token. -/
theorem RunsReleases.spends (runs : RunsReleases paths state final releases)
    (filed : Filed state.hopsByToken) : ∃ groups, final.swaps = state.swaps ++ groups.flatten ∧
      List.Forall₂ (Release.Spends paths) releases groups := by
  obtain ⟨groups, swaps, pairs⟩ := runs.groups
  refine ⟨groups, swaps, ?_⟩
  have branches := runs.branches
  clear swaps runs
  induction pairs with
  | nil => exact .nil
  | cons here later ih =>
    obtain ⟨nonempty, takes⟩ := filed _ _ (branches _ mem_cons_self)
    exact .cons (here.spends nonempty takes)
      (ih fun release member => branches release (mem_cons_of_mem _ member))

variable {groups : List (List (SimulatedSplitSwap P))}

private theorem filter_of_spends {token : Address}
    (pairs : List.Forall₂ (Release.Spends paths) releases groups)
    (apart : token ∉ releases.map Release.token) :
    groups.flatten.filter (fun swap => swap.hop.tokenIn.address = token) = [] := by
  rw [filter_eq_nil_iff]
  intro swap member
  obtain ⟨group, listed, here⟩ := mem_flatten.mp member
  obtain ⟨release, inReleases, spends⟩ := exists_of_forall₂_right pairs listed
  simp only [decide_eq_true_eq]
  rintro rfl
  exact apart (mem_map.mpr ⟨release, inReleases, (spends.takes swap here).symm⟩)

theorem consumedOf_head
    (pairs : List.Forall₂ (Release.Spends paths) (release :: releases) (group :: groups))
    (distinct : ((release :: releases).map Release.token).Nodup) :
    consumedOf (group :: groups).flatten release.token = release.balance := by
  obtain ⟨here, later⟩ := forall₂_cons.mp pairs
  rw [map_cons, nodup_cons] at distinct
  have own : group.filter (fun swap => swap.hop.tokenIn.address = release.token) = group := by
    rw [filter_eq_self]
    intro swap member
    simpa using here.takes swap member
  rw [consumedOf, flatten_cons, filter_append, own, filter_of_spends later distinct.1, append_nil,
    here.all]

end Spends

/-! ## The releases of a whole plan -/

section Whole

variable [ProtocolSim P] {display : Address → String} {symbol : Token → String}
  {paths : List PathAllocation} {market : MarketState P} {baseOverrides : MarketOverrides P}
  {capture : StateCapture} {startToken : Address} {startAmount : Nat} {execution : SplitExecution P}

variable (symbol paths market baseOverrides capture startToken startAmount) in
/-- The releases of a split, in order. -/
def splitReleases : List (Release P) :=
  planReleases symbol paths market baseOverrides capture
    ((waiting (mergeSharedHops paths)).length + 1) (planStart paths startToken startAmount)

/-- The first release is that of the start token. -/
theorem splitReleases_head {release : Release P}
    (first : (splitReleases symbol paths market baseOverrides capture startToken
      startAmount).head? = some release) :
    release.token = startToken ∧ release.balance = startAmount := by
  unfold splitReleases planReleases at first
  dsimp only [planStart] at first
  cases found : (mergeSharedHops paths).lookup startToken with
  | none =>
    rw [found] at first
    have none : ∀ fuel (state : PlanState P), state.ready = [] →
        planReleases symbol paths market baseOverrides capture fuel state = [] := by
      intro fuel state empty
      cases fuel with
      | zero => rfl
      | succ fuel => rw [planReleases, empty]
    rw [none _ _ rfl] at first
    cases first
  | some branch =>
    rw [found] at first
    dsimp only at first
    rw [head?_cons, Option.some.injEq] at first
    subst first
    refine ⟨rfl, ?_⟩
    rw [Release.balance, balanceAt_insert, if_pos rfl]

end Whole

end Fynd
