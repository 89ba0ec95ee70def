import Fynd.Split.PlanEnds
import Fynd.Split.Validation

/-!
# The shape of a built route

The swaps of a split are emitted release by release, so the branch collections of the route
are its releases. On simple paths, reach, ends and order of such a route are always accepted,
and where every token is taken once the route is a chain.
-/

namespace Fynd

open Foundation List

variable {P : Type}

/-! ## Grouping what was grouped -/

section Grouped

variable {T : Type} {tokenIn : T → Address}

variable {token : Address} {collections : List (Address × List T)}

private theorem fileUnder_append {item : T} (apart : token ∉ collections.map Prod.fst)
    (others : List (Address × List T)) :
    fileUnder token item (collections ++ others) =
      collections ++ fileUnder token item others := by
  induction collections with
  | nil => rfl
  | cons collection rest ih =>
    obtain ⟨other, items⟩ := collection
    rw [map_cons, mem_cons, not_or] at apart
    rw [cons_append, fileUnder, if_neg (Ne.symm apart.1), ih apart.2, cons_append]

private theorem branchCollections_append_group {items group : List T} (nonempty : group ≠ [])
    (takes : ∀ item ∈ group, tokenIn item = token)
    (new : token ∉ (branchCollections tokenIn items).map Prod.fst) :
    branchCollections tokenIn (items ++ group) =
      branchCollections tokenIn items ++ [(token, group)] := by
  induction group using List.reverseRecOn with
  | nil => exact absurd rfl nonempty
  | append_singleton group item ih =>
    have here := takes item (by simp)
    rw [← append_assoc, branchCollections_append_singleton, here]
    cases group with
    | nil =>
      have filed : fileUnder token item (_ ++ []) = _ := fileUnder_append new []
      rwa [append_nil] at filed ⊢
    | cons first rest =>
      rw [ih (cons_ne_nil _ _) fun other member =>
        takes other (mem_append_left _ member)]
      rw [fileUnder_append new, fileUnder, if_pos rfl]

/-- **Grouping collections that stand in a row gives them back.** -/
theorem branchCollections_flatMap (distinct : (collections.map Prod.fst).Nodup)
    (grouped : ∀ collection ∈ collections, collection.2 ≠ [] ∧
      ∀ item ∈ collection.2, tokenIn item = collection.1) :
    branchCollections tokenIn (collections.flatMap Prod.snd) = collections := by
  induction collections using List.reverseRecOn with
  | nil => rfl
  | append_singleton collections last ih =>
    rw [map_append, nodup_append] at distinct
    obtain ⟨nonempty, takes⟩ := grouped last (by simp)
    have before := ih distinct.1 fun collection member => grouped collection (by simp [member])
    rw [flatMap_append, flatMap_singleton, branchCollections_append_group nonempty takes, before]
    rw [before]
    intro listed
    exact distinct.2.2 last.1 listed last.1 (by simp) rfl

end Grouped

/-! ## The collections of a built route -/

/-- The swaps of a release as the route lists them. -/
structure Release.Emitted (paths : List PathAllocation) (release : Release P)
    (collection : Address × List (Swap P)) : Prop where
  token : collection.1 = release.token
  nonempty : collection.2 ≠ []
  takes : ∀ swap ∈ collection.2, swap.tokenIn = collection.1
  splits : collection.2.map Swap.split = release.shares paths ++ [0]
  all : (collection.2.map Swap.amountIn).sum = release.balance

private theorem Release.Spends.emitted {paths : List PathAllocation} {release : Release P}
    {group : List (SimulatedSplitSwap P)} {swaps : List (Swap P)}
    (spends : release.Spends paths group) (emits : List.Forall₂ Emits group swaps) :
    release.Emitted paths (release.token, swaps) where
  token := rfl
  nonempty := ne_nil_of_forall₂ emits.flip spends.nonempty
  takes := by
    intro swap member
    obtain ⟨executed, listed, emitted⟩ := exists_of_forall₂_right emits member
    rw [emitted.tokenIn]
    exact spends.takes executed listed
  splits := by
    rw [← map_eq_map_of_forall₂ emits fun _ _ emitted => emitted.split.symm]
    exact spends.splits
  all := by
    rw [← map_eq_map_of_forall₂ emits fun _ _ emitted => emitted.amountIn.symm]
    exact spends.all

variable {paths : List PathAllocation} {order : Order} {route : Route P}

private theorem exists_collections {releases : List (Release P)}
    {groups : List (List (SimulatedSplitSwap P))} {swaps : List (Swap P)}
    (spends : List.Forall₂ (Release.Spends paths) releases groups)
    (emits : List.Forall₂ Emits groups.flatten swaps) :
    ∃ collections, swaps = collections.flatMap Prod.snd ∧
      List.Forall₂ (Release.Emitted paths) releases collections := by
  induction spends generalizing swaps with
  | nil =>
    cases emits
    exact ⟨[], rfl, .nil⟩
  | cons here _ ih =>
    rw [flatten_cons] at emits
    obtain ⟨first, others, rfl, own, later⟩ := exists_append_of_forall₂ emits
    obtain ⟨collections, rfl, emitted⟩ := ih later
    exact ⟨(_, first) :: collections, rfl, .cons (here.emitted own) emitted⟩

section Built

variable [ProtocolSim P] {display : Address → String} {symbol : Token → String}
  {paths : List PathAllocation} {market : MarketState P} {order : Order}
  {route : Route P} {execution : SplitExecution P}

variable
  (executed : executeSplitPlan display symbol paths market ∅ .keep order.tokenIn order.amount =
    .ok execution)
  (emits : List.Forall₂ Emits execution.swaps route.swaps)
include executed emits

/-- **The branch collections of a built route are the releases of its plan.** -/
theorem collections_of_built :
    route.swaps = (branchCollections Swap.tokenIn route.swaps).flatMap Prod.snd ∧
      List.Forall₂ (Release.Emitted paths)
        (splitReleases symbol paths market ∅ .keep order.tokenIn order.amount)
        (branchCollections Swap.tokenIn route.swaps) := by
  obtain ⟨distinct, groups, swaps, spends⟩ := spends_of_executeSplitPlan executed
  rw [swaps] at emits
  obtain ⟨collections, listed, emitted⟩ := exists_collections spends emits
  rw [map_eq_map_of_forall₂ emitted fun _ _ own => own.token.symm] at distinct
  have same : branchCollections Swap.tokenIn route.swaps = collections := by
    rw [listed]
    refine branchCollections_flatMap distinct fun collection member => ?_
    obtain ⟨release, _, own⟩ := exists_of_forall₂_right emitted member
    exact ⟨own.nonempty, own.takes⟩
  rw [same]
  exact ⟨listed, emitted⟩

theorem inputAmount_of_built (nonempty : route.swaps ≠ []) :
    route.inputAmount = some order.amount := by
  obtain ⟨listed, emitted⟩ := collections_of_built executed emits
  have total (swaps : List (Swap P)) :
      swaps.foldl (fun total swap => total + swap.amountIn) 0 =
      (swaps.map Swap.amountIn).sum := by
    rw [sum_eq_foldl, foldl_map]
  unfold Route.inputAmount
  cases collections : branchCollections Swap.tokenIn route.swaps with
  | nil =>
    rw [collections] at listed
    exact absurd listed nonempty
  | cons collection rest =>
    rw [collections] at emitted
    obtain ⟨release, releases, own, _, shape⟩ := forall₂_cons_right_iff.mp emitted
    obtain ⟨_, balance⟩ := splitReleases_head (by rw [shape]; rfl)
    rw [head?_cons, Option.map_some, total, own.all, balance]

end Built

/-! ## The checks that always pass -/

section Shape

variable {swaps : List (Swap P)}

private theorem feeds_of_mem {swap : Swap P} (member : swap ∈ swaps) :
    Feeds (branchCollections Swap.tokenIn swaps) swap.tokenIn swap.tokenOut := by
  have collected := collected_branchCollections Swap.tokenIn swaps
  have key := (collected.keys swap.tokenIn).mpr (mem_map_of_mem member)
  obtain ⟨entry, listed, same⟩ := mem_map.mp key
  unfold Feeds outputsOf
  cases found : (branchCollections Swap.tokenIn swaps).find? fun collection =>
      collection.1 = swap.tokenIn with
  | none =>
    have absent := find?_eq_none.mp found entry listed
    simp [same] at absent
  | some collection =>
    have here : collection.1 = swap.tokenIn := by simpa using find?_some found
    refine mem_map.mpr ⟨swap, ?_, rfl⟩
    rw [collected.filed collection (mem_of_find?_eq_some found), mem_filter]
    exact ⟨member, by simp [here]⟩

private theorem reached_of_leads {feeds : Address → Address → Prop} {source target : Address}
    {hops : List HopDescriptor} (leads : HopsLead source target hops)
    (made : ∀ hop ∈ hops, feeds hop.tokenIn.address hop.tokenOut.address) {hop : HopDescriptor}
    (member : hop ∈ hops) : Relation.ReflTransGen feeds source hop.tokenIn.address := by
  induction hops generalizing source with
  | nil => cases member
  | cons first rest ih =>
    rcases mem_cons.mp member with rfl | later
    · rw [leads.1]
    · have onward := ih leads.2 (fun other listed => made other (mem_cons_of_mem _ listed)) later
      exact .head (leads.1 ▸ made first mem_cons_self) onward

/-- No cycle is found where no output was taken before. -/
theorem findCycle_eq_ok {firstToken terminalToken : Address} {earlier : List Address}
    {collections : List (Address × List (Swap P))}
    (onward : ∀ before collection after, collections = before ++ collection :: after →
      ∀ swap ∈ collection.2, swap.tokenOut ∉ earlier ++ (before ++ [collection]).map Prod.fst) :
    findCycle firstToken terminalToken earlier collections = .ok () := by
  induction collections generalizing earlier with
  | nil => rfl
  | cons collection rest ih =>
    obtain ⟨tokenIn, swaps⟩ := collection
    unfold findCycle
    dsimp only
    have none : swaps.find? (fun swap => swap.tokenOut ∈ tokenIn :: earlier &&
        !(firstToken = terminalToken && swap.tokenOut = firstToken)) = none := by
      rw [find?_eq_none]
      intro swap member
      have fresh := onward [] (tokenIn, swaps) rest rfl swap member
      have unseen : swap.tokenOut ∉ tokenIn :: earlier := by
        simpa [or_comm] using fresh
      simp [unseen]
    rw [none]
    apply ih
    intro before collection after place swap member
    have fresh := onward ((tokenIn, swaps) :: before) collection after (by rw [place]; rfl) swap
      member
    intro taken
    apply fresh
    simp only [cons_append, map_cons, mem_append, mem_cons] at taken ⊢
    tauto

end Shape

/-- The merged swap that a swap of a route makes. -/
def Swap.key (swap : Swap P) : HopKey := (swap.componentId, swap.tokenIn, swap.tokenOut)

variable (paths order route) in
/-- A route with every hop of simple paths once, in dependency order. -/
structure ListsPaths : Prop where
  simple : SimplePaths order.tokenIn order.tokenOut paths
  keys : ∀ key, key ∈ route.swaps.map Swap.key ↔ key ∈ hopKeys paths
  once : (route.swaps.map Swap.key).Nodup
  ordered : ProducersFirst Swap.tokenIn Swap.tokenOut route.swaps
  input : route.inputToken = some order.tokenIn
  output : route.outputToken = some order.tokenOut

/-- A built route lists its paths. -/
theorem listsPaths_of_built [ProtocolSim P] {display : Address → String}
    {symbol : Token → String} {market : MarketState P} {execution : SplitExecution P}
    (simple : SimplePaths order.tokenIn order.tokenOut paths)
    (executed : executeSplitPlan display symbol paths market ∅ .keep order.tokenIn order.amount =
      .ok execution)
    (emits : List.Forall₂ Emits execution.swaps route.swaps) (nonempty : route.swaps ≠ []) :
    ListsPaths paths order route := by
  have funds : ConservesFunds paths market ∅ order.tokenIn order.amount order.tokenOut
      execution := by
    obtain ⟨goesOn, _, final, run, _, done, rfl⟩ := executeSplitPlan_eq_ok executed
    exact ((inProgress_start simple).runReady run).conservesFunds done simple goesOn
  have leads := fun path listed => (simple path listed).leads
  have ends := planEnds_of_executeSplitPlan leads executed (ne_nil_of_forall₂ emits nonempty)
  obtain ⟨input, output, _⟩ := ends_of_emits ends emits nonempty
  have keys : execution.swaps.map (fun swap => hopKey swap.hop) = route.swaps.map Swap.key := by
    refine map_eq_map_of_forall₂ emits fun executed swap emitted => ?_
    rw [Swap.key, emitted.componentId, emitted.tokenIn, emitted.tokenOut]
    rfl
  refine ⟨simple, keys ▸ funds.every, keys ▸ funds.once, ?_, input, output⟩
  have ordered : ProducersFirst HopKey.taken HopKey.paid
      (execution.swaps.map fun swap => hopKey swap.hop) := ProducersFirst.map funds.ordered
  rw [keys] at ordered
  exact ordered.of_map

namespace ListsPaths

variable {paths : List PathAllocation} {order : Order} {route : Route P}
  (lists : ListsPaths paths order route)

include lists

variable {swap : Swap P}

private theorem mem_hopKeys (member : swap ∈ route.swaps) : swap.key ∈ hopKeys paths :=
  (lists.keys _).mp (mem_map_of_mem member)

private theorem tokenOut_ne (member : swap ∈ route.swaps) : swap.tokenOut ≠ order.tokenIn :=
  lists.simple.paid_ne (lists.mem_hopKeys member)

private theorem swaps_eq_cons :
    ∃ first rest, route.swaps = first :: rest ∧ first.tokenIn = order.tokenIn := by
  have input := lists.input
  cases shape : route.swaps with
  | nil => simp [Route.inputToken, shape] at input
  | cons first rest => exact ⟨first, rest, rfl, by simpa [Route.inputToken, shape] using input⟩

private theorem tokens_ne : order.tokenIn ≠ order.tokenOut := by
  obtain ⟨first, rest, shape, here⟩ := lists.swaps_eq_cons
  rw [← here]
  exact lists.simple.taken_ne (lists.mem_hopKeys (by rw [shape]; exact mem_cons_self))

/-- Every output but the last token is taken. -/
theorem taken (member : swap ∈ route.swaps) (goesOn : swap.tokenOut ≠ order.tokenOut) :
    swap.tokenOut ∈ route.swaps.map Swap.tokenIn := by
  obtain ⟨taker, listed, takes⟩ := lists.simple.exists_taker (lists.mem_hopKeys member) goesOn
  obtain ⟨other, here, rfl⟩ := mem_map.mp ((lists.keys taker).mpr listed)
  exact mem_map.mpr ⟨other, here, takes⟩

private theorem keys_eq_cons : ∃ others,
    (branchCollections Swap.tokenIn route.swaps).map Prod.fst = order.tokenIn :: others := by
  obtain ⟨first, rest, shape, here⟩ := lists.swaps_eq_cons
  obtain ⟨others, keys⟩ := keys_branchCollections_prefix Swap.tokenIn [first] rest
  exact ⟨others, by rw [shape, ← here]; exact keys.symm⟩

theorem validateBfsConnectivity : Fynd.validateBfsConnectivity
    (branchCollections Swap.tokenIn route.swaps) order.tokenIn = .ok () := by
  rw [validateBfsConnectivity_eq_ok_iff]
  intro collection member
  have taken := ((collected_branchCollections Swap.tokenIn route.swaps).keys collection.1).mp
    (mem_map_of_mem member)
  obtain ⟨swap, listed, same⟩ := mem_map.mp taken
  obtain ⟨path, inPaths, hop, inPath, equal⟩ := Fynd.mem_hopKeys.mp (lists.mem_hopKeys listed)
  have token : hop.tokenIn.address = collection.1 := by
    rw [← same]
    exact congrArg HopKey.taken equal
  rw [← token]
  refine reached_of_leads (lists.simple path inPaths).leads (fun other here => ?_) inPath
  obtain ⟨maker, made, key⟩ := mem_map.mp
    ((lists.keys (hopKey other)).mpr (Fynd.mem_hopKeys.mpr ⟨path, inPaths, other, here, rfl⟩))
  have feeds := feeds_of_mem made
  rwa [show maker.tokenIn = other.tokenIn.address from congrArg HopKey.taken key,
    show maker.tokenOut = other.tokenOut.address from congrArg HopKey.paid key] at feeds

variable (listed : route.swaps = (branchCollections Swap.tokenIn route.swaps).flatMap Prod.snd)
include listed

theorem validateDeadEnds :
    Fynd.validateDeadEnds (branchCollections Swap.tokenIn route.swaps) order.tokenOut = .ok () := by
  obtain ⟨others, keys⟩ := lists.keys_eq_cons
  have none : ((branchCollections Swap.tokenIn route.swaps).flatMap Prod.snd).find? (fun swap =>
      swap.tokenOut ∉ ((branchCollections Swap.tokenIn route.swaps).drop 1).map Prod.fst &&
        swap.tokenOut ≠ order.tokenOut) = none := by
    rw [find?_eq_none, ← listed]
    intro swap member refused
    simp only [Bool.and_eq_true, decide_eq_true_eq] at refused
    have taken := lists.taken member refused.2
    rw [← (collected_branchCollections Swap.tokenIn route.swaps).keys, keys] at taken
    apply refused.1
    rw [map_drop, keys]
    exact (mem_cons.mp taken).resolve_left (lists.tokenOut_ne member)
  unfold Fynd.validateDeadEnds
  dsimp only
  rw [none]

theorem validateCycles
    (nonempty : ∀ collection ∈ branchCollections Swap.tokenIn route.swaps, collection.2 ≠ []) :
    Fynd.validateCycles (branchCollections Swap.tokenIn route.swaps) order.tokenIn order.tokenOut =
      .ok () := by
  have collected := collected_branchCollections Swap.tokenIn route.swaps
  unfold Fynd.validateCycles
  rw [if_neg (by simp [lists.tokens_ne])]
  apply findCycle_eq_ok
  intro before collection after place swap member returns
  rw [nil_append] at returns
  obtain ⟨early, late, own⟩ := append_of_mem member
  have filed (other : Address × List (Swap P))
      (inside : other ∈ branchCollections Swap.tokenIn route.swaps) {taker : Swap P}
      (takes : taker ∈ other.2) : taker.tokenIn = other.1 := by
    rw [collected.filed other inside, mem_filter] at takes
    exact of_decide_eq_true takes.2
  have shape : route.swaps =
      (before.flatMap Prod.snd ++ early) ++ swap :: (late ++ after.flatMap Prod.snd) := by
    rw [listed, place, flatMap_append, flatMap_cons, own]
    simp
  obtain ⟨other, inside, same⟩ := mem_map.mp returns
  apply lists.ordered.not_taken shape
  rcases mem_append.mp inside with earlier | here
  · have within : other ∈ branchCollections Swap.tokenIn route.swaps := by
      rw [place]
      exact mem_append_left _ earlier
    obtain ⟨taker, takes⟩ := exists_mem_of_ne_nil _ (nonempty other within)
    refine mem_map.mpr ⟨taker, ?_, (filed other within takes).trans same⟩
    exact mem_append_left _ (mem_append_left _ (mem_flatMap.mpr ⟨other, earlier, takes⟩))
  · obtain rfl := mem_singleton.mp here
    exact mem_map.mpr ⟨swap, by simp, (filed other (by rw [place]; simp) member).trans same⟩

end ListsPaths

/-! ## Routes without fractions -/

section Chains

/-- The hops of a path, as merged swaps in a row. -/
theorem HopsLead.leadsFrom {source target : Address} {hops : List HopDescriptor}
    (leads : HopsLead source target hops) :
    LeadsFrom HopKey.taken HopKey.paid source target (hops.map hopKey) := by
  induction hops generalizing source with
  | nil => exact leads
  | cons hop rest ih => exact ⟨leads.1, ih leads.2⟩

/-- Where every token is taken by one merged swap, there is one simple path. -/
theorem TokenSimple.hopKeys_eq {source target : Address} {hops others : List HopDescriptor}
    {keys : List HopKey}
    (unique : ∀ left ∈ keys, ∀ right ∈ keys, left.taken = right.taken → left = right)
    (path : TokenSimple source target hops) (other : TokenSimple source target others)
    (listed : hops.map hopKey ⊆ keys) (listedToo : others.map hopKey ⊆ keys) :
    hops.map hopKey = others.map hopKey := by
  induction hops generalizing source others with
  | nil =>
    cases others with
    | nil => rfl
    | cons hop rest =>
      exact absurd (other.leads.1.trans path.leads) (other.takes_not_target mem_cons_self)
  | cons hop rest ih =>
    cases others with
    | nil =>
      exact absurd (path.leads.1.trans other.leads) (path.takes_not_target mem_cons_self)
    | cons first later =>
      rw [map_cons, cons_subset] at listed listedToo
      have same := unique _ listed.1 _ listedToo.1 (path.leads.1.trans other.leads.1.symm)
      have out : hop.tokenOut.address = first.tokenOut.address := congrArg HopKey.paid same
      have simple := (nodup_cons.mp path.simple).2
      have simpleToo := (nodup_cons.mp other.simple).2
      rw [map_cons] at simple simpleToo
      rw [map_cons, map_cons, same]
      congr 1
      refine ih ⟨path.leads.2, simple⟩ ⟨?_, ?_⟩ listed.2 listedToo.2
      · rw [out]
        exact other.leads.2
      · rw [out]
        exact simpleToo

variable {swaps : List (Swap P)}

private theorem validateConnected_of_leadsFrom {source target : Address}
    (leads : LeadsFrom HopKey.taken HopKey.paid source target (swaps.map Swap.key)) :
    validateConnected swaps = .ok () := by
  induction swaps generalizing source with
  | nil => rfl
  | cons first rest ih =>
    cases rest with
    | nil => rfl
    | cons second rest =>
      have linked : first.tokenOut = second.tokenIn := leads.2.1.symm
      unfold validateConnected
      rw [if_neg (by simp [linked])]
      exact ih leads.2

private theorem validateTokens_of_nodup {first last : Address} {seen : List Address}
    (distinct : (swaps.map Swap.tokenOut).Nodup) (new : ∀ swap ∈ swaps, swap.tokenOut ∉ seen) :
    validateTokens first last seen swaps = .ok () := by
  induction swaps generalizing seen with
  | nil => rfl
  | cons swap rest ih =>
    rw [map_cons, nodup_cons] at distinct
    unfold validateTokens
    rw [if_neg (new swap mem_cons_self)]
    refine ih distinct.2 fun other member => ?_
    rw [mem_cons, not_or]
    refine ⟨fun same => ?_, new other (mem_cons_of_mem _ member)⟩
    exact distinct.1 (mem_map.mpr ⟨other, member, same⟩)

end Chains

/-- A route that takes every token once is a chain. -/
theorem ListsPaths.validateSequentialRoute (lists : ListsPaths paths order route)
    (unique : ∀ left ∈ route.swaps, ∀ right ∈ route.swaps, left.tokenIn = right.tokenIn →
      left = right) (last : Address) :
    validateConnected route.swaps = .ok () ∧
      validateTokens order.tokenIn last [order.tokenIn] route.swaps = .ok () := by
  obtain ⟨first, rest, shape, _⟩ := lists.swaps_eq_cons
  have listed : first ∈ route.swaps := shape ▸ mem_cons_self
  obtain ⟨path, inPaths, _, _, _⟩ := Fynd.mem_hopKeys.mp (lists.mem_hopKeys listed)
  have takers : ∀ left ∈ hopKeys paths, ∀ right ∈ hopKeys paths, left.taken = right.taken →
      left = right := by
    intro left inLeft right inRight same
    obtain ⟨swap, member, rfl⟩ := mem_map.mp ((lists.keys left).mpr inLeft)
    obtain ⟨other, memberToo, rfl⟩ := mem_map.mp ((lists.keys right).mpr inRight)
    rw [unique swap member other memberToo same]
  have within (other : PathAllocation) (inPaths : other ∈ paths) :
      (other.hops.map SimulatedHop.descriptor).map hopKey ⊆ hopKeys paths := by
    intro key member
    obtain ⟨hop, here, rfl⟩ := mem_map.mp member
    exact Fynd.mem_hopKeys.mpr ⟨other, inPaths, hop, here, rfl⟩
  -- All paths make the same swaps, so the route makes those of one path, in its order.
  have simple := lists.simple path inPaths
  have outs : (((path.hops.map SimulatedHop.descriptor).map hopKey).map HopKey.paid) =
      (path.hops.map SimulatedHop.descriptor).map fun hop => hop.tokenOut.address := by
    rw [map_map]
    rfl
  have distinct : ((path.hops.map SimulatedHop.descriptor).map hopKey).Nodup := by
    apply List.Nodup.of_map HopKey.paid
    rw [outs]
    exact (nodup_cons.mp simple.simple).2
  have perm : (route.swaps.map Swap.key).Perm
      ((path.hops.map SimulatedHop.descriptor).map hopKey) := by
    rw [perm_ext_iff_of_nodup lists.once distinct]
    intro key
    rw [lists.keys]
    refine ⟨fun made => ?_, fun member => within path inPaths member⟩
    obtain ⟨other, otherIn, hop, here, rfl⟩ := Fynd.mem_hopKeys.mp made
    rw [TokenSimple.hopKeys_eq takers simple (lists.simple other otherIn) (within path inPaths)
      (within other otherIn)]
    exact mem_map_of_mem here
  have ordered : ProducersFirst HopKey.taken HopKey.paid (route.swaps.map Swap.key) :=
    ProducersFirst.map lists.ordered
  have chain := ordered.eq_of_perm perm simple.leads.leadsFrom (by
    rw [outs]
    exact simple.simple)
  refine ⟨validateConnected_of_leadsFrom (chain ▸ simple.leads.leadsFrom), ?_⟩
  apply validateTokens_of_nodup
  · have paid : route.swaps.map Swap.tokenOut = (route.swaps.map Swap.key).map HopKey.paid := by
      rw [map_map]
      rfl
    rw [paid, chain, outs]
    exact (nodup_cons.mp simple.simple).2
  · intro swap member
    rw [mem_singleton]
    exact lists.tokenOut_ne member

end Fynd
