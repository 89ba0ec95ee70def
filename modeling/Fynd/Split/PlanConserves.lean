import Fynd.Split.PlanProgress

/-!
# A split plan keeps the books

On paths that visit no token twice, a plan that succeeds makes every merged swap once, after
all that pays its token, and on the pool state that earlier swaps left. What was paid into a
token is all spent, but for the token the paths end at.
-/

namespace Fynd

open Foundation List

variable {P : Type}

/-! ## Paths that visit no token twice -/

/-- The hops lead from one token to another. -/
def HopsLead : Address → Address → List HopDescriptor → Prop
  | source, target, [] => source = target
  | source, target, hop :: rest =>
    hop.tokenIn.address = source ∧ HopsLead hop.tokenOut.address target rest

instance decidableHopsLead : (source target : Address) → (hops : List HopDescriptor) →
    Decidable (HopsLead source target hops)
  | source, target, [] => inferInstanceAs (Decidable (source = target))
  | _, target, hop :: rest =>
    @instDecidableAnd _ _ _ (decidableHopsLead hop.tokenOut.address target rest)

/-- A path from one token to another that visits no token twice. -/
structure TokenSimple (source target : Address) (hops : List HopDescriptor) : Prop where
  leads : HopsLead source target hops
  simple : (source :: hops.map fun hop => hop.tokenOut.address).Nodup

instance (source target : Address) (hops : List HopDescriptor) :
    Decidable (TokenSimple source target hops) :=
  decidable_of_iff (_ ∧ _) ⟨fun ⟨leads, simple⟩ => ⟨leads, simple⟩,
    fun path => ⟨path.leads, path.simple⟩⟩

section Paths

variable {source target : Address} {hops : List HopDescriptor}

namespace HopsLead

variable (leads : HopsLead source target hops)
include leads

private theorem target_mem : target ∈ source :: hops.map fun hop => hop.tokenOut.address := by
  induction hops generalizing source with
  | nil => exact mem_singleton.mpr leads.symm
  | cons hop rest ih => exact mem_cons_of_mem _ (ih leads.2)

private theorem takes_source (goesOn : source ≠ target) :
    ∃ hop ∈ hops, hop.tokenIn.address = source := by
  cases hops with
  | nil => exact absurd leads goesOn
  | cons hop rest => exact ⟨hop, mem_cons_self, leads.1⟩

theorem takes_paid {hop : HopDescriptor} (member : hop ∈ hops)
    (goesOn : hop.tokenOut.address ≠ target) :
    ∃ taker ∈ hops, taker.tokenIn.address = hop.tokenOut.address := by
  induction hops generalizing source with
  | nil => cases member
  | cons first rest ih =>
    rcases mem_cons.mp member with rfl | later
    · obtain ⟨taker, listed, takes⟩ := takes_source leads.2 goesOn
      exact ⟨taker, mem_cons_of_mem _ listed, takes⟩
    · obtain ⟨taker, listed, takes⟩ := ih leads.2 later
      exact ⟨taker, mem_cons_of_mem _ listed, takes⟩

private theorem last {hop : HopDescriptor} (last : hops.getLast? = some hop) :
    hop.tokenOut.address = target := by
  induction hops generalizing source with
  | nil => cases last
  | cons first rest ih =>
    cases rest with
    | nil =>
      cases last
      exact leads.2
    | cons second later =>
      rw [getLast?_cons_cons] at last
      exact ih leads.2 last

end HopsLead

namespace TokenSimple

variable {hop : HopDescriptor} (path : TokenSimple source target hops) (member : hop ∈ hops)
include path member

private theorem pays_not_source : hop.tokenOut.address ≠ source := by
  intro same
  apply (nodup_cons.mp path.simple).1
  exact mem_map.mpr ⟨hop, member, same⟩

theorem takes_not_target : hop.tokenIn.address ≠ target := by
  induction hops generalizing source with
  | nil => cases member
  | cons first rest ih =>
    obtain ⟨⟨takes, leads⟩, simple⟩ := path
    rw [map_cons, nodup_cons] at simple
    rcases mem_cons.mp member with rfl | later
    · rintro rfl
      exact simple.1 (takes ▸ leads.target_mem)
    · exact ih ⟨leads, simple.2⟩ later

end TokenSimple

end Paths

/-- A plan from a token to another that keeps the books. -/
structure ConservesFunds [ProtocolSim P] (paths : List PathAllocation) (market : MarketState P)
    (baseOverrides : MarketOverrides P) (tokenIn : Address) (amountIn : Nat) (tokenOut : Address)
    (execution : SplitExecution P) : Prop where
  /-- What is taken of the start token is the start amount. -/
  started : consumedOf execution.swaps tokenIn = amountIn
  /-- What is taken of a token in between is what was paid into it. -/
  consumed : ∀ token, token ≠ tokenIn → token ≠ tokenOut →
    consumedOf execution.swaps token = producedOf execution.swaps token
  /-- Nothing is left but of the last token. -/
  emptied : ∀ token, token ≠ tokenOut → balanceAt execution.available token = 0
  /-- No merged swap is made twice. -/
  once : (execution.swaps.map fun swap => hopKey swap.hop).Nodup
  /-- The merged swaps are the hops of the paths. -/
  every : ∀ key, key ∈ (execution.swaps.map fun swap => hopKey swap.hop) ↔ key ∈ hopKeys paths
  ordered : ProducersFirst (fun swap => swap.hop.tokenIn.address)
    (fun swap => swap.hop.tokenOut.address) execution.swaps
  answered : AnswersInOrder market baseOverrides execution.swaps
  /-- What stands at the last token is what was paid into it. -/
  output : balanceAt execution.available tokenOut = producedOf execution.swaps tokenOut

/-! ## The whole plan -/

section Plan

variable {paths : List PathAllocation} {tokenIn tokenOut : Address}

/-- Every path leads from the first token to the last and visits no token twice. -/
def SimplePaths (tokenIn tokenOut : Address) (paths : List PathAllocation) : Prop :=
  ∀ path ∈ paths, TokenSimple tokenIn tokenOut (path.hops.map SimulatedHop.descriptor)

instance : Decidable (SimplePaths tokenIn tokenOut paths) :=
  inferInstanceAs (Decidable (∀ path ∈ paths, _))

theorem mem_hopKeys {key : HopKey} :
    key ∈ hopKeys paths ↔ ∃ path ∈ paths, ∃ hop ∈ path.hops.map SimulatedHop.descriptor,
      hopKey hop = key := by
  simp only [hopKeys, mem_map, mem_flatMap]
  constructor
  · rintro ⟨hop, ⟨path, listed, here⟩, rfl⟩
    exact ⟨path, listed, hop.descriptor, ⟨hop, here, rfl⟩, rfl⟩
  · rintro ⟨path, listed, _, ⟨hop, here, rfl⟩, rfl⟩
    exact ⟨hop, ⟨path, listed, here⟩, rfl⟩

namespace SimplePaths

variable (simple : SimplePaths tokenIn tokenOut paths) {key : HopKey}

include simple

section

variable (member : key ∈ hopKeys paths)
include member

theorem paid_ne : key.paid ≠ tokenIn := by
  obtain ⟨path, listed, hop, here, rfl⟩ := mem_hopKeys.mp member
  exact (simple path listed).pays_not_source here

theorem taken_ne : key.taken ≠ tokenOut := by
  obtain ⟨path, listed, hop, here, rfl⟩ := mem_hopKeys.mp member
  exact (simple path listed).takes_not_target here

theorem exists_taker (goesOn : key.paid ≠ tokenOut) :
    ∃ taker ∈ hopKeys paths, taker.taken = key.paid := by
  obtain ⟨path, listed, hop, here, rfl⟩ := mem_hopKeys.mp member
  obtain ⟨taker, found, takes⟩ := (simple path listed).leads.takes_paid here goesOn
  exact ⟨hopKey taker, mem_hopKeys.mpr ⟨path, listed, taker, found, rfl⟩, takes⟩

end

private theorem exists_first {path : PathAllocation} (listed : path ∈ paths)
    (goesOn : path.hops ≠ []) : ∃ taker ∈ hopKeys paths, taker.taken = tokenIn := by
  have leads := (simple path listed).leads
  cases hops : path.hops with
  | nil => exact absurd hops goesOn
  | cons hop rest =>
    rw [hops] at leads
    refine ⟨hopKey hop.descriptor, mem_hopKeys.mpr ⟨path, listed, hop.descriptor, ?_, rfl⟩,
      leads.1⟩
    rw [hops]
    exact mem_cons_self

end SimplePaths

private theorem exists_hops_of_checked {display : Address → String} {ledger : PathLedger}
    (valid : paths.forM (PathAllocation.validateTokenCycles display) = .ok ())
    (divides : PathLedger.new paths = .ok ledger) : ∃ path ∈ paths, path.hops ≠ [] := by
  cases paths with
  | nil => cases divides
  | cons path rest =>
    refine ⟨path, mem_cons_self, fun none => ?_⟩
    have checked := forM_eq_ok_iff.mp valid path mem_cons_self
    rw [PathAllocation.validateTokenCycles, none] at checked
    cases checked

variable [ProtocolSim P] {market : MarketState P}
  {baseOverrides : MarketOverrides P} {final : PlanState P} {startAmount : Nat}

/-- A plan before its first token is released. -/
def planStart (paths : List PathAllocation) (startToken : Address) (startAmount : Nat) :
    PlanState P where
  hopsByToken := mergeSharedHops paths
  inDegree := buildInDegree (mergeSharedHops paths)
  ready := [startToken]
  ledger := ⟨paths.map PathAllocation.amountIn, List.replicate paths.length 0⟩
  balances := (∅ : Map Address Nat).insert startToken startAmount
  swaps := []
  postSwap := ∅
  totalGas := 0

theorem inProgress_start (simple : SimplePaths tokenIn tokenOut paths) :
    InProgress market baseOverrides (balanceAt ((∅ : Map Address Nat).insert tokenIn startAmount))
      (mergedHops paths).keys (planStart paths tokenIn startAmount) [] where
  conserves := Flow.conserves_start (waiting_mergeSharedHops paths)
  filed := filed_mergeSharedHops paths
  counted := balanceAt_buildInDegree (mergeSharedHops paths)
  complete := by
    intro token member
    obtain rfl : token = tokenIn := by simpa [planStart, PlanState.taken] using member
    apply payersOf_eq_zero_iff.mpr
    intro swap waits
    have merged : hopKey swap.hop ∈ (mergedHops paths).keys :=
      (waiting_mergeSharedHops paths).subset (mem_map.mpr ⟨swap, waits, rfl⟩)
    exact simple.paid_ne ((mem_keys_mergedHops paths _).mp merged)
  settled := by
    intro token member
    simp [planStart, PlanState.taken] at member
  answered := by
    intro before swap after place
    simp [planStart] at place
  held := fun componentId => rfl

/-! ## A plan that has run every swap -/

section Finished

variable (progress : InProgress market baseOverrides
    (balanceAt ((∅ : Map Address Nat).insert tokenIn startAmount)) (mergedHops paths).keys final [])
  (done : final.hopsByToken.entries = [])

include progress

private theorem InProgress.books (token : Address) :
    balanceAt final.balances token + consumedOf final.swaps token =
      (if token = tokenIn then startAmount else 0) + producedOf final.swaps token := by
  have kept := progress.conserves.balanced token
  rw [balanceAt_insert] at kept
  rw [← takenFrom_flow, ← paidTo_flow]
  exact kept

include done

private theorem InProgress.perm_keys :
    (final.swaps.map fun swap => hopKey swap.hop).Perm (mergedHops paths).keys := by
  have once := progress.conserves.once
  simpa [PlanState.flow, PlanState.pending, waiting, done, Function.comp_def] using once

private theorem InProgress.mem_keys (key : HopKey) :
    key ∈ (final.swaps.map fun swap => hopKey swap.hop) ↔ key ∈ hopKeys paths := by
  rw [(progress.perm_keys done).mem_iff, mem_keys_mergedHops]

/-- A token that some hop takes is spent by its whole branch. -/
theorem InProgress.spent {taker : HopKey} (member : taker ∈ hopKeys paths) :
    balanceAt final.balances taker.taken = 0 := by
  obtain ⟨swap, ran, rfl⟩ := mem_map.mp ((progress.mem_keys done taker).mpr member)
  refine (progress.settled _ (mem_append_left _ ?_)).2
  exact mem_map.mpr ⟨swap, ran, rfl⟩

private theorem InProgress.producedOf_eq_zero {token : Address}
    (absent : ∀ key ∈ hopKeys paths, key.paid ≠ token) : producedOf final.swaps token = 0 := by
  rw [← paidTo_flow]
  apply paidTo_eq_zero
  intro fired member
  obtain ⟨swap, ran, rfl⟩ := mem_map.mp member
  exact absent _ ((progress.mem_keys done _).mp (mem_map.mpr ⟨swap, ran, rfl⟩))

private theorem InProgress.consumedOf_eq_zero {token : Address}
    (absent : ∀ key ∈ hopKeys paths, key.taken ≠ token) : consumedOf final.swaps token = 0 := by
  rw [← takenFrom_flow]
  apply takenFrom_eq_zero
  intro fired member
  obtain ⟨swap, ran, rfl⟩ := mem_map.mp member
  exact absent _ ((progress.mem_keys done _).mp (mem_map.mpr ⟨swap, ran, rfl⟩))

/-- Nothing is left but of the last token. -/
theorem InProgress.emptied (simple : SimplePaths tokenIn tokenOut paths)
    (starts : ∃ taker ∈ hopKeys paths, taker.taken = tokenIn) {token : Address}
    (inner : token ≠ tokenOut) : balanceAt final.balances token = 0 := by
  by_cases taken : ∃ taker ∈ hopKeys paths, taker.taken = token
  · obtain ⟨taker, member, rfl⟩ := taken
    exact progress.spent done member
  · have differs : token ≠ tokenIn := by
      rintro rfl
      exact taken starts
    have nothing : producedOf final.swaps token = 0 := by
      apply progress.producedOf_eq_zero done
      rintro key member rfl
      exact taken (simple.exists_taker member inner)
    have books := progress.books token
    rw [if_neg differs, nothing] at books
    omega

/-- A plan that has run every swap keeps the books. -/
theorem InProgress.conservesFunds (simple : SimplePaths tokenIn tokenOut paths)
    (goesOn : ∃ path ∈ paths, path.hops ≠ []) :
    ConservesFunds paths market baseOverrides tokenIn startAmount tokenOut
      ⟨final.swaps, final.balances, final.postSwap, final.totalGas⟩ := by
  obtain ⟨path, walked, hops⟩ := goesOn
  have starts := simple.exists_first walked hops
  have apart : tokenOut ≠ tokenIn := by
    obtain ⟨first, used, takes⟩ := starts
    rw [← takes]
    exact (simple.taken_ne used).symm
  have books := progress.books
  exact {
    started := by
      have first := books tokenIn
      rw [progress.emptied done simple starts apart.symm, if_pos rfl,
        progress.producedOf_eq_zero done fun key member => simple.paid_ne member] at first
      dsimp only
      omega
    consumed := by
      intro token notFirst notLast
      have inner := books token
      rw [progress.emptied done simple starts notLast, if_neg notFirst] at inner
      dsimp only
      omega
    emptied := fun token inner => progress.emptied done simple starts inner
    once := (progress.perm_keys done).nodup_iff.mpr (mergedHops paths).keys_nodup
    every := progress.mem_keys done
    ordered := progress.conserves.ordered.of_map
    answered := progress.answered
    output := by
      have last := books tokenOut
      rw [progress.consumedOf_eq_zero done fun key member => simple.taken_ne member,
        if_neg apart] at last
      dsimp only
      omega }

end Finished

/-! ## What a plan gives -/

/-- What a plan that succeeds went through. -/
theorem executeSplitPlan_eq_ok {display : Address → String} {symbol : Token → String}
    {capture : StateCapture} {startToken : Address} {execution : SplitExecution P}
    (executed : executeSplitPlan display symbol paths market baseOverrides capture startToken
      startAmount = .ok execution) :
    (∃ path ∈ paths, path.hops ≠ []) ∧
    (∀ path ∈ paths, path.validateTokenCycles display = .ok ()) ∧ ∃ final,
      runReady symbol paths market baseOverrides capture
        ((waiting (mergeSharedHops paths)).length + 1) (planStart paths startToken startAmount) =
          .ok final ∧
      final.ready = [] ∧ final.hopsByToken.entries = [] ∧
      execution = ⟨final.swaps, final.balances, final.postSwap, final.totalGas⟩ := by
  obtain ⟨⟨⟩, valid, rest⟩ := bind_eq_ok_iff.mp executed
  obtain ⟨ledger, divides, rest⟩ := bind_eq_ok_iff.mp rest
  obtain ⟨final, run, rest⟩ := bind_eq_ok_iff.mp rest
  have amounts : ledger = ⟨paths.map PathAllocation.amountIn, List.replicate paths.length 0⟩ := by
    unfold PathLedger.new at divides
    dsimp only at divides
    split at divides
    · cases divides
    · cases divides
      rfl
  rw [amounts] at run
  split at rest
  · rename_i done
    cases rest
    refine ⟨exists_hops_of_checked valid divides, forM_eq_ok_iff.mp valid, final, run, ?_,
      List.isEmpty_iff.mp done, rfl⟩
    exact ready_of_runReady (by simp [Nat.add_comm]) run
  · cases rest

/-- **A split plan that succeeds conserves funds.** -/
theorem conservesFunds_of_executeSplitPlan {display : Address → String} {symbol : Token → String}
    {capture : StateCapture} {execution : SplitExecution P}
    (simple : SimplePaths tokenIn tokenOut paths)
    (executed : executeSplitPlan display symbol paths market baseOverrides capture tokenIn
      startAmount = .ok execution) :
    ConservesFunds paths market baseOverrides tokenIn startAmount tokenOut execution := by
  obtain ⟨goesOn, _, final, run, _, done, rfl⟩ := executeSplitPlan_eq_ok executed
  exact ((inProgress_start simple).runReady run).conservesFunds done simple goesOn

/-! ## The output of a split -/

/-- Paths to one token have one terminal token. -/
theorem terminalTokens_dedup {descriptors : List (List HopDescriptor)}
    {terminalTokens : List Address} (nonempty : descriptors ≠ [])
    (leads : ∀ path ∈ descriptors, HopsLead tokenIn tokenOut path)
    (ends : List.Forall₂ (fun path token => path.getLast?.elim
      (.error (.other "path has no hops")) (fun hop => .ok hop.tokenOut.address) =
        (.ok token : Except AlgorithmError Address)) descriptors terminalTokens) :
    terminalTokens.dedup = [tokenOut] := by
  have last : terminalTokens = List.replicate terminalTokens.length tokenOut := by
    rw [eq_replicate_iff]
    refine ⟨rfl, fun token member => ?_⟩
    obtain ⟨path, listed, found⟩ := exists_of_forall₂_right ends member
    cases tail : path.getLast? with
    | none =>
      rw [tail] at found
      cases found
    | some hop =>
      rw [tail] at found
      cases found
      exact (leads path listed).last tail
  rw [last]
  apply replicate_dedup
  rw [← ends.length_eq]
  exact mt length_eq_zero_iff.mp nonempty

end Plan

/-! ## A sample -/

/-- A pool with equal reserves of its tokens, which shrink as it pays. -/
structure ThinPool where
  reserve : Nat
  deriving DecidableEq, Repr

instance : ProtocolSim ThinPool where
  getAmountOut pool amountIn _ _ :=
    let paid := amountIn * pool.reserve / (pool.reserve + amountIn)
    .returned ⟨paid, 1, ⟨pool.reserve - paid⟩⟩

/-- An allocation along swaps given by pool and tokens. -/
def allocated (amountIn : Nat) (hops : List HopKey) : PathAllocation where
  hops := hops.map fun (id, tokenIn, tokenOut) => ⟨⟨id, ⟨tokenIn, 18⟩, ⟨tokenOut, 18⟩⟩, 0, 0⟩
  flowFraction := 0
  amountIn := amountIn
  amountOut := 0
  marginalPriceProduct := 0

/-- Three paths. The first two share their last swap, the last two their first, and one pool
trades in two directions. -/
def sharedPaths : List PathAllocation :=
  [allocated 50 [("p", 0, 1), ("a", 1, 3)], allocated 30 [("q", 0, 2), ("p", 2, 1), ("a", 1, 3)],
    allocated 20 [("q", 0, 2), ("b", 2, 3)]]

/-- A thousand of each token in every pool. -/
def thinPools : MarketState ThinPool where
  components := ∅
  simulationStates := mapOfList [("a", ⟨1000⟩), ("b", ⟨1000⟩), ("p", ⟨1000⟩), ("q", ⟨1000⟩)]
  tokens := ∅
  gasPrice := none

/-- The shared paths make five swaps, and the books are kept. -/
theorem shared_paths_conserve_funds : ∃ execution,
    executeSplitPlan toString (fun _ => "") sharedPaths thinPools ∅ .skip 0 100 = .ok execution ∧
      execution.swaps.map SimulatedSplitSwap.amountIn = [50, 50, 27, 20, 73] ∧
        ConservesFunds sharedPaths thinPools ∅ 0 100 3 execution := by
  obtain ⟨execution, executed, amounts⟩ : ∃ execution,
      executeSplitPlan toString (fun _ => "") sharedPaths thinPools ∅ .skip 0 100 =
        .ok execution ∧
      execution.swaps.map SimulatedSplitSwap.amountIn = [50, 50, 27, 20, 73] :=
    exists_ok_of_any (by decide +kernel)
  exact ⟨execution, executed, amounts,
    conservesFunds_of_executeSplitPlan (by decide +kernel) executed⟩

end Fynd
