import Fynd.Split.BuiltRoute

/-!
# Where a split plan ends

Paths may lead back to the token they start at. The start token is then paid after it was
taken, but no other token is. So the last swap of a plan pays the token the paths end at,
and what stands there at the end is what was paid into it.
-/

namespace Fynd

open Foundation List

variable {P : Type}

/-! ## Paths that were checked -/

section Checked

variable {display : Address → String} {firstToken source target : Address} {i : Nat}
  {seen : List Address} {hops : List SimulatedHop}

/-- A hop that passes the check pays a new token, or it is the last and pays the first token. -/
theorem checkHopTokens_cons {first : SimulatedHop}
    (checked : checkHopTokens display firstToken i seen (first :: hops) = .ok ()) :
    hops = [] ∧ first.descriptor.tokenOut.address = firstToken ∨
      first.descriptor.tokenOut.address ∉ seen ∧
        checkHopTokens display firstToken (i + 1) (first.descriptor.tokenOut.address :: seen) hops =
          .ok () := by
  unfold checkHopTokens at checked
  dsimp only at checked
  split at checked
  · split at checked
    · rename_i last
      simp only [Bool.and_eq_true, List.isEmpty_iff, decide_eq_true_eq] at last
      exact .inl last
    · cases checked
  · rename_i fresh
    exact .inr ⟨fresh, checked⟩

section

variable (checked : checkHopTokens display firstToken i seen hops = .ok ())
include checked

private theorem target_of_return (started : firstToken ∈ seen)
    (leads : HopsLead source target (hops.map SimulatedHop.descriptor)) {hop : SimulatedHop}
    (member : hop ∈ hops) (returns : hop.descriptor.tokenOut.address = firstToken) :
    firstToken = target := by
  induction hops generalizing i seen source with
  | nil => cases member
  | cons first rest ih =>
    obtain ⟨rfl, same⟩ | ⟨fresh, checked⟩ := checkHopTokens_cons checked
    · exact same.symm.trans leads.2
    · rcases mem_cons.mp member with rfl | later
      · exact absurd (returns ▸ started) fresh
      · exact ih checked (mem_cons_of_mem _ started) leads.2 later

section

variable (leads : HopsLead source target (hops.map SimulatedHop.descriptor))
include leads

private theorem nil_of_target_seen
    (visited : target ∈ seen) (onward : target ≠ firstToken) : hops = [] := by
  induction hops generalizing i seen source with
  | nil => rfl
  | cons first rest ih =>
    obtain ⟨rfl, same⟩ | ⟨fresh, checked⟩ := checkHopTokens_cons checked
    · exact absurd (leads.2.symm.trans same) onward
    · have ended := ih checked leads.2 (mem_cons_of_mem _ visited)
      subst ended
      have paid : first.descriptor.tokenOut.address = target := leads.2
      exact absurd (paid ▸ visited) fresh

private theorem takes_not_target_of_checked (begins : source ≠ target)
    (onward : target ≠ firstToken) {hop : SimulatedHop} (member : hop ∈ hops) :
    hop.descriptor.tokenIn.address ≠ target := by
  induction hops generalizing i seen source with
  | nil => cases member
  | cons first rest ih =>
    have taken : first.descriptor.tokenIn.address = source := leads.1
    rcases mem_cons.mp member with rfl | later
    · rwa [taken]
    · obtain ⟨rfl, _⟩ | ⟨_, checked⟩ := checkHopTokens_cons checked
      · cases later
      · by_cases arrived : first.descriptor.tokenOut.address = target
        · have ended := nil_of_target_seen checked leads.2 (by simp [arrived]) onward
          rw [ended] at later
          cases later
        · exact ih checked leads.2 arrived later

end

end

private theorem checked_of_valid {path : PathAllocation}
    (valid : path.validateTokenCycles display = .ok ())
    (leads : HopsLead source target (path.hops.map SimulatedHop.descriptor)) :
    checkHopTokens display source 0 [source] path.hops = .ok () := by
  unfold PathAllocation.validateTokenCycles at valid
  cases shape : path.hops with
  | nil =>
    rw [shape] at valid
    cases valid
  | cons first rest =>
    rw [shape] at valid leads
    rw [← leads.1]
    exact valid

end Checked

/-! ## A plan that may return to its start -/

variable (swaps : List (SimulatedSplitSwap P)) (swap : SimulatedSplitSwap P) (token : Address)

private theorem consumedOf_concat : consumedOf (swaps ++ [swap]) token =
      consumedOf swaps token + if swap.hop.tokenIn.address = token then swap.amountIn else 0 := by
  by_cases here : swap.hop.tokenIn.address = token <;> simp [consumedOf, here]

private theorem producedOf_concat : producedOf (swaps ++ [swap]) token =
      producedOf swaps token + if swap.hop.tokenOut.address = token then swap.amountOut else 0 := by
  by_cases here : swap.hop.tokenOut.address = token <;> simp [producedOf, here]

/-- What holds of a plan on paths that may end where they start. -/
structure Underway (start : Address) (amount : Nat) (hops : List HopDescriptor)
    (state : PlanState P) (todo : List SplitSwap) : Prop where
  filed : Filed state.hopsByToken
  once : (state.swaps.map SimulatedSplitSwap.hop ++ (state.pending todo).map SplitSwap.hop).Perm
    hops
  counted : ∀ token, balanceAt state.inDegree token = payersOf (state.pending todo) token
  /-- Nothing more is paid into a token that is released or taken, but for the start. -/
  complete : ∀ token ∈ state.ready ++ state.taken todo,
    token = start ∨ payersOf (state.pending todo) token = 0
  books : ∀ token, balanceAt state.balances token + consumedOf state.swaps token =
    (if token = start then amount else 0) + producedOf state.swaps token
  /-- A swap pays the start or a token that was not taken yet. -/
  onward : ∀ before swap after, state.swaps = before ++ swap :: after →
    swap.hop.tokenOut.address = start ∨
      swap.hop.tokenOut.address ∉ (before ++ [swap]).map fun earlier => earlier.hop.tokenIn.address

section Steps

variable [ProtocolSim P] {symbol : Token → String} {paths : List PathAllocation}
  {market : MarketState P} {baseOverrides : MarketOverrides P}
  {capture : StateCapture} {start : Address} {amount : Nat} {hops : List HopDescriptor}
  {state next final : PlanState P} {todo : List SplitSwap}

/-- **One swap.** -/
theorem Underway.runSwap {sized : SizedSwap}
    (underway : Underway start amount hops state (sized.1 :: todo))
    (run : Fynd.runSwap symbol market baseOverrides capture state sized = .ok next) :
    Underway start amount hops next todo := by
  obtain ⟨executed, ran⟩ := runSwap_eq_ok run
  exact {
    filed := ran.hopsByToken ▸ underway.filed
    once := by
      have moved : (next.swaps.map SimulatedSplitSwap.hop ++
          (next.pending todo).map SplitSwap.hop) =
            state.swaps.map SimulatedSplitSwap.hop ++
              (state.pending (sized.1 :: todo)).map SplitSwap.hop := by
        simp [PlanState.pending, ran.swaps, ran.hopsByToken, ran.hop]
      rw [moved]
      exact underway.once
    counted := ran.counted underway.counted
    complete := ran.complete (· = start) underway.counted underway.complete
    books := by
      intro token
      have before := underway.books token
      have covered := ran.covered
      rw [ran.swaps, consumedOf_concat, producedOf_concat, ran.balances, ran.hop, ran.amountIn]
      by_cases here : sized.1.hop.tokenIn.address = token
      · rw [here] at covered ⊢
        simp only [if_true]
        omega
      · simp only [here, if_false]
        omega
    onward := by
      intro before swap after place
      rw [ran.swaps] at place
      rcases place_concat place with ⟨rfl, rfl, _⟩ | ⟨rest, _, earlier⟩
      · by_cases returns : swap.hop.tokenOut.address = start
        · exact .inl returns
        · right
          intro taken
          have listed : swap.hop.tokenOut.address ∈ state.taken (sized.1 :: todo) := by
            simp only [PlanState.taken, map_append, map_cons, mem_append, mem_cons,
              ran.hop] at taken ⊢
            tauto
          have unpaid := (underway.complete _ (mem_append_right _ listed)).resolve_left returns
          rw [ran.hop] at unpaid
          exact payersOf_eq_zero_iff.mp unpaid sized.1 (by simp [PlanState.pending]) rfl
      · exact underway.onward before swap rest earlier }

/-- The swaps of a branch, one after another. -/
theorem Underway.runSwaps {sized : List SizedSwap}
    (underway : Underway start amount hops state (sized.map Prod.fst))
    (run : sized.foldlM (Fynd.runSwap symbol market baseOverrides capture) state = .ok next) :
    Underway start amount hops next [] := by
  refine foldlM_invariant (fun reached rest => Underway start amount hops reached
    (rest.map Prod.fst)) ?_ underway run
  intro reached swap rest after before first
  exact before.runSwap first

omit [ProtocolSim P] in
/-- A token is released, and its branch is divided. -/
theorem Underway.startBranch {token : Address} {ready : List Address} {branch : List SplitSwap}
    {ledger : PathLedger} {sized : List SplitSwap} (underway : Underway start amount hops state [])
    (released : state.ready = token :: ready) (found : state.hopsByToken.lookup token = some branch)
    (same : (sized.map SplitSwap.hop).Perm (branch.map SplitSwap.hop)) :
    Underway start amount hops
      { state with ready := ready, hopsByToken := state.hopsByToken.erase token, ledger := ledger }
      sized := by
  have listed := perm_pending_startBranch found same
  exact { underway with
    filed := underway.filed.erase token
    once := (listed.append_left _).trans underway.once
    counted := by
      intro other
      rw [PlanState.pending, payersOf_perm listed]
      exact underway.counted other
    complete := by
      intro other member
      rw [PlanState.pending, payersOf_perm listed]
      apply underway.complete other
      rcases mem_append.mp member with waits | used
      · simp [released, waits]
      · rcases mem_taken_startBranch found same underway.filed used with earlier | rfl
        · exact mem_append_right _ earlier
        · simp [released] }

/-- **A whole run.** -/
theorem Underway.runReady {fuel : Nat} (underway : Underway start amount hops state [])
    (run : Fynd.runReady symbol paths market baseOverrides capture fuel state = .ok final) :
    Underway start amount hops final [] := by
  refine runReady_invariant (fun state => Underway start amount hops state []) ?_ ?_ underway run
  · intro state token ready before released _
    refine { before with complete := ?_ }
    intro other member
    apply before.complete other
    rw [released, cons_append]
    exact mem_cons_of_mem _ member
  · intro state token ready branch sized next before released found divided swapped
    have hops := (amountsForBranch_eq_ok divided).1
    exact (before.startBranch released found hops).runSwaps swapped

omit [ProtocolSim P] in
private theorem underway_start :
    Underway start amount ((waiting (mergeSharedHops paths)).map SplitSwap.hop)
      (planStart paths start amount : PlanState P) [] where
  filed := filed_mergeSharedHops paths
  once := List.Perm.refl _
  counted := balanceAt_buildInDegree (mergeSharedHops paths)
  complete := by
    intro token member
    exact .inl (by simpa [planStart, PlanState.taken] using member)
  books := by
    intro token
    rw [planStart, balanceAt_insert]
    rfl
  onward := by
    intro before swap after place
    simp [planStart] at place

end Steps

/-! ## The ends of a plan -/

/-- What a plan that succeeds says about where it starts and ends. -/
structure PlanEnds (paths : List PathAllocation) (tokenIn : Address) (amountIn : Nat)
    (tokenOut : Address) (execution : SplitExecution P) : Prop where
  hops : ∀ swap ∈ execution.swaps,
    swap.hop ∈ (paths.flatMap PathAllocation.hops).map SimulatedHop.descriptor
  first : ∀ swap ∈ execution.swaps.head?, swap.hop.tokenIn.address = tokenIn
  taken : consumedOf execution.swaps tokenIn = amountIn
  last : ∀ swap ∈ execution.swaps.getLast?, swap.hop.tokenOut.address = tokenOut
  output : balanceAt execution.available tokenOut = producedOf execution.swaps tokenOut

/-- The ends of a built route are those of its plan. -/
theorem ends_of_emits {paths : List PathAllocation} {order : Order} {route : Route P}
    {execution : SplitExecution P}
    (ends : PlanEnds paths order.tokenIn order.amount order.tokenOut execution)
    (emits : List.Forall₂ Emits execution.swaps route.swaps) (nonempty : route.swaps ≠ []) :
    route.inputToken = some order.tokenIn ∧ route.outputToken = some order.tokenOut ∧
      ((route.swaps.filter fun swap => swap.tokenIn = order.tokenIn).map Swap.amountIn).sum =
        order.amount ∧
      route.amountOut order.tokenOut = balanceAt execution.available order.tokenOut := by
  have ran := ne_nil_of_forall₂ emits nonempty
  refine ⟨?_, ?_, ?_, ?_⟩
  · have taken := map_eq_map_of_forall₂ emits fun _ _ emitted => emitted.tokenIn.symm
    rw [Route.inputToken, ← head?_map, ← taken, head?_map, head?_eq_some_head ran, Option.map_some]
    exact congrArg some (ends.first _ (head?_eq_some_head ran))
  · have paid := map_eq_map_of_forall₂ emits fun _ _ emitted => emitted.tokenOut.symm
    rw [Route.outputToken, ← getLast?_map, ← paid, getLast?_map, getLast?_eq_some_getLast ran,
      Option.map_some]
    exact congrArg some (ends.last _ (getLast?_eq_some_getLast ran))
  · rw [← ends.taken, consumedOf]
    refine (sum_filter_of_forall₂ emits fun _ _ emitted => ⟨?_, emitted.amountIn.symm⟩).symm
    rw [emitted.tokenIn]
  · rw [ends.output, producedOf, Route.amountOut]
    refine (sum_filter_of_forall₂ emits fun _ _ emitted => ⟨?_, emitted.amountOut.symm⟩).symm
    rw [emitted.tokenOut]

section Ends

variable [ProtocolSim P] {display : Address → String} {symbol : Token → String}
  {paths : List PathAllocation} {market : MarketState P}
  {baseOverrides : MarketOverrides P} {capture : StateCapture} {tokenIn tokenOut : Address}
  {amountIn : Nat} {execution : SplitExecution P}

section

variable
  (executed : executeSplitPlan display symbol paths market baseOverrides capture tokenIn amountIn =
    .ok execution)
include executed

/-- The swaps of a plan by its releases. -/
theorem spends_of_executeSplitPlan :
    let releases := splitReleases symbol paths market baseOverrides capture tokenIn amountIn
    (releases.map Release.token).Nodup ∧ ∃ groups, execution.swaps = groups.flatten ∧
      List.Forall₂ (Release.Spends paths) releases groups := by
  obtain ⟨_, _, final, run, _, _, rfl⟩ := executeSplitPlan_eq_ok executed
  have runs := runsReleases_of_runReady run
  obtain ⟨groups, swaps, pairs⟩ := runs.spends (filed_mergeSharedHops paths)
  exact ⟨runs.distinct, groups, swaps, pairs⟩

private theorem starts_of_executeSplitPlan (nonempty : execution.swaps ≠ []) :
    (∀ swap ∈ execution.swaps.head?, swap.hop.tokenIn.address = tokenIn) ∧
      consumedOf execution.swaps tokenIn = amountIn := by
  obtain ⟨distinct, groups, swaps, pairs⟩ := spends_of_executeSplitPlan executed
  cases releases : splitReleases symbol paths market baseOverrides capture tokenIn amountIn with
  | nil =>
    rw [releases] at pairs
    cases pairs
    exact absurd swaps nonempty
  | cons release rest =>
    obtain ⟨rfl, rfl⟩ := splitReleases_head (by rw [releases]; rfl)
    rw [releases] at pairs distinct
    cases pairs with
    | cons here later =>
      rename_i group others
      rw [swaps]
      refine ⟨?_, consumedOf_head (.cons here later) distinct⟩
      intro swap first
      cases shape : group with
      | nil => exact absurd shape here.nonempty
      | cons head tail =>
        rw [shape, flatten_cons, cons_append, head?_cons, Option.mem_some_iff] at first
        subst first
        exact here.takes head (by simp [shape])

end

omit [ProtocolSim P] in
/-- The swaps of a plan make the hops of the paths, every one of them. -/
theorem hops_of_underway {final : PlanState P}
    (underway : Underway tokenIn amountIn ((waiting (mergeSharedHops paths)).map SplitSwap.hop)
      final []) (done : final.hopsByToken.entries = []) :
    (∀ swap ∈ final.swaps,
      ∃ path ∈ paths, ∃ hop ∈ path.hops, hop.descriptor = swap.hop) ∧
    ∀ path ∈ paths, ∀ hop ∈ path.hops.map SimulatedHop.descriptor,
      hop.tokenIn.address ∈ final.swaps.map fun swap => swap.hop.tokenIn.address := by
  have once : (final.swaps.map SimulatedSplitSwap.hop).Perm
      ((waiting (mergeSharedHops paths)).map SplitSwap.hop) := by
    simpa [PlanState.pending, waiting, done] using underway.once
  refine ⟨?_, ?_⟩
  · intro swap member
    obtain ⟨merged, waits, same⟩ := mem_map.mp (once.subset (mem_map_of_mem member))
    obtain ⟨path, inPaths, hop, inPath, equal⟩ := exists_hop_of_merged waits
    exact ⟨path, inPaths, hop, inPath, equal.trans same⟩
  · intro path inPaths hop inPath
    have key : hopKey hop ∈ (mergedHops paths).keys :=
      (mem_keys_mergedHops paths _).mpr (mem_hopKeys.mpr ⟨path, inPaths, hop, inPath, rfl⟩)
    obtain ⟨merged, waits, same⟩ := mem_map.mp ((waiting_mergeSharedHops paths).symm.subset key)
    obtain ⟨swap, member, equal⟩ := mem_map.mp (once.symm.subset (mem_map_of_mem waits))
    refine mem_map.mpr ⟨swap, member, ?_⟩
    rw [equal]
    exact congrArg HopKey.taken same

/-- **Where a plan ends.** Its last swap pays the token the paths end at, and what stands there is
what was paid into it. -/
theorem planEnds_of_executeSplitPlan
    (leads : ∀ path ∈ paths, HopsLead tokenIn tokenOut (path.hops.map SimulatedHop.descriptor))
    (executed : executeSplitPlan display symbol paths market baseOverrides capture tokenIn
      amountIn = .ok execution) (nonempty : execution.swaps ≠ []) :
    PlanEnds paths tokenIn amountIn tokenOut execution := by
  obtain ⟨first, taken⟩ := starts_of_executeSplitPlan executed nonempty
  obtain ⟨_, valid, final, run, _, done, rfl⟩ := executeSplitPlan_eq_ok executed
  have underway := underway_start.runReady run
  obtain ⟨made, every⟩ := hops_of_underway underway done
  have checked {path : PathAllocation} (listed : path ∈ paths) :=
    checked_of_valid (valid path listed) (leads path listed)
  exact {
    hops := by
      intro swap member
      obtain ⟨path, inPaths, hop, inPath, same⟩ := made swap member
      exact mem_map.mpr ⟨hop, mem_flatMap.mpr ⟨path, inPaths, inPath⟩, same⟩
    first := first
    taken := taken
    last := by
      intro swap ends
      obtain ⟨before, place⟩ := getLast?_eq_some_iff.mp (Option.mem_def.mp ends)
      dsimp only at place
      obtain ⟨path, inPaths, hop, inPath, same⟩ := made swap (by rw [place]; simp)
      by_contra elsewhere
      -- The path goes on, so the token that the last swap pays was taken before.
      obtain ⟨taker, inHops, takes⟩ := (leads path inPaths).takes_paid
        (mem_map_of_mem inPath) (by rwa [same])
      have used := every path inPaths taker inHops
      rw [takes, same, place] at used
      rcases underway.onward before swap [] place with returns | untaken
      · have arrives := target_of_return (checked inPaths) mem_cons_self (leads path inPaths)
          inPath (by rw [same, returns])
        exact elsewhere (returns.trans arrives)
      · exact untaken used
    output := by
      have books := underway.books tokenOut
      by_cases roundTrip : tokenOut = tokenIn
      · rw [if_pos roundTrip, roundTrip, taken] at books
        rw [roundTrip]
        dsimp only
        omega
      · have unused : consumedOf final.swaps tokenOut = 0 := by
          rw [consumedOf, filter_eq_nil_iff.mpr]
          · rfl
          · intro swap member
            obtain ⟨path, inPaths, hop, inPath, same⟩ := made swap member
            have apart := takes_not_target_of_checked (checked inPaths) (leads path inPaths)
              (Ne.symm roundTrip) roundTrip inPath
            simpa [← same] using apart
        rw [unused, if_neg roundTrip] at books
        dsimp only
        omega }

/-! ## The output a split is scored by -/

private theorem map_bare (paths : List PathAllocation) :
    paths.map PathAllocation.bare = List.zipWith (fun hops amountIn => ⟨hops, 0, amountIn, 0, 0⟩)
      (paths.map fun path => path.hops.map fun hop => ⟨hop.descriptor, 0, 0⟩)
      (paths.map PathAllocation.amountIn) := by
  induction paths with
  | nil => rfl
  | cons path rest ih =>
    rw [map_cons, ih]
    rfl

private theorem hops_of_allocationsFromDescriptors {descriptors : List (List HopDescriptor)}
    {fractions : List Binary64} {total : Nat} {allocations : List PathAllocation}
    (allocated : allocationsFromDescriptors descriptors fractions total = .ok allocations) :
    allocations.map PathAllocation.hops =
      descriptors.map fun path => path.map fun descriptor => ⟨descriptor, 0, 0⟩ := by
  unfold allocationsFromDescriptors at allocated
  split at allocated
  · cases allocated
  · rename_i matched
    rw [ne_eq, not_not] at matched
    obtain ⟨amounts, divided, built⟩ := bind_eq_ok_iff.mp allocated
    have length := (fractionsToAmounts_eq_ok (mapError_eq_ok divided)).1
    have firsts : (descriptors.zip (fractions.zip amounts)).map Prod.fst = descriptors :=
      map_fst_zip (by rw [length_zip]; omega)
    rw [← congrArg (List.map _) firsts, map_map]
    refine (map_eq_map_of_forall₂ (mapM_eq_ok_iff.mp built) fun given allocation made => ?_).symm
    dsimp only at made
    split at made
    · cases made
    · cases made
      rfl

/-- **The scored output is what the emitted plan leaves at the last token.** -/
theorem evaluateTotalOutput_of_executeSplitPlan {fractions : List Binary64}
    {allocations : List PathAllocation}
    (leads : ∀ path ∈ paths, HopsLead tokenIn tokenOut (path.hops.map SimulatedHop.descriptor))
    (allocated : allocationsFromDescriptors
      (paths.map fun path => path.hops.map SimulatedHop.descriptor) fractions amountIn =
        .ok allocations)
    (amounts : allocations.map PathAllocation.amountIn = paths.map PathAllocation.amountIn)
    (executed : executeSplitPlan display symbol paths market baseOverrides .keep tokenIn
      amountIn = .ok execution) :
    evaluateTotalOutput display symbol
        (paths.map fun path => path.hops.map SimulatedHop.descriptor) fractions amountIn market
        baseOverrides =
      .ok (balanceAt execution.available tokenOut, execution.totalGas) := by
  have same : allocations.map PathAllocation.bare = paths.map PathAllocation.bare := by
    have hops := hops_of_allocationsFromDescriptors allocated
    rw [map_bare, map_bare, amounts]
    congr 1
    have again := congrArg (List.map fun hops : List SimulatedHop =>
      hops.map fun hop => (⟨hop.descriptor, 0, 0⟩ : SimulatedHop)) hops
    simpa [map_map, Function.comp_def] using again
  have scored := executeSplitPlan_forget symbol paths market baseOverrides display executed
  rw [← executeSplitPlan_bare, ← same, executeSplitPlan_bare] at scored
  obtain ⟨⟨path, listed, _⟩, valid, _⟩ := executeSplitPlan_eq_ok executed
  have nonempty : (paths.map fun path => path.hops.map SimulatedHop.descriptor) ≠ [] := by
    rw [ne_eq, map_eq_nil_iff]
    rintro rfl
    cases listed
  have walked : ∀ hops ∈ paths.map fun path => path.hops.map SimulatedHop.descriptor,
      HopsLead tokenIn tokenOut hops ∧ hops ≠ [] := by
    intro hops member
    obtain ⟨path, listed, rfl⟩ := mem_map.mp member
    refine ⟨leads path listed, fun none => ?_⟩
    have checked := valid path listed
    rw [PathAllocation.validateTokenCycles, map_eq_nil_iff.mp none] at checked
    cases checked
  generalize (paths.map fun path => path.hops.map SimulatedHop.descriptor) = descriptors
    at allocated nonempty walked ⊢
  obtain ⟨terminalTokens, ends⟩ : ∃ tokens, descriptors.mapM (fun path => path.getLast?.elim
      (.error (.other "path has no hops")) (fun hop => .ok hop.tokenOut.address)) =
        (.ok tokens : Except AlgorithmError (List Address)) := by
    apply exists_mapM_eq_ok
    intro hops member
    rw [getLast?_eq_some_getLast (walked hops member).2]
    exact ⟨_, rfl⟩
  have terminal := terminalTokens_dedup nonempty (fun hops member => (walked hops member).1)
    (mapM_eq_ok_iff.mp ends)
  obtain ⟨firstHop, begins, takes⟩ : ∃ firstHop,
      descriptors.head?.bind List.head? = some firstHop ∧ firstHop.tokenIn.address = tokenIn := by
    obtain ⟨path, rest, rfl⟩ := exists_cons_of_ne_nil nonempty
    obtain ⟨first, some⟩ := walked path mem_cons_self
    obtain ⟨hop, later, rfl⟩ := exists_cons_of_ne_nil some
    exact ⟨hop, rfl, first.1⟩
  unfold evaluateTotalOutput
  refine bind_eq_ok_iff.mpr ⟨firstHop, by rw [begins]; rfl, ?_⟩
  refine bind_eq_ok_iff.mpr ⟨terminalTokens, ends, ?_⟩
  refine bind_eq_ok_iff.mpr ⟨allocations, allocated, ?_⟩
  refine bind_eq_ok_iff.mpr ⟨_, by rw [takes]; exact scored, ?_⟩
  rw [terminal]
  simp [pure, Except.pure]

end Ends

end Fynd
