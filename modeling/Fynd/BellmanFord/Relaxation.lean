import Mathlib.Logic.Function.Basic
import Fynd.BellmanFord.Context
import Fynd.Foundation.Trace

/-!
# The relaxation loop

`runSpfa` fills, for every node, the best amount found, the hop that delivered it
and the gas of that hop. Nodes are rewritten in place while a round runs, so the
run is also exposed step by step: `spfaSteps` lists every relaxation with the
state it starts from.
-/

namespace Fynd

open Foundation List

variable {P : Type}

/-- The arrays of one relaxation pass. -/
structure SpfaState where
  amount : NodeIndex → Nat
  predecessor : NodeIndex → Option (NodeIndex × ComponentId)
  edgeGas : NodeIndex → Nat
  cumulGas : NodeIndex → Nat
  spotProduct : NodeIndex → Float
  inputBelowHopGas : Bool
  nextActive : List NodeIndex

/-- Walks the predecessor chain of `current`, looking for the target token or the component.
`none` means the walk has not ended within the given number of nodes. -/
def pathHasConflict (predecessor : NodeIndex → Option (NodeIndex × ComponentId))
    (target : NodeIndex) (component : ComponentId) : Nat → NodeIndex → Option Bool
  | 0, _ => none
  | steps + 1, current =>
    if current = target then some true
    else
      match predecessor current with
      | none => some false
      | some (previous, used) =>
        if used = component then some true
        else pathHasConflict predecessor target component steps previous

/-- The outcome of simulating one edge from the current amount of its source. -/
structure Candidate where
  amount : Nat
  gas : Nat
  cumulGas : Nat
  spotProduct : Float
  tokenOut : Token

variable [ProtocolSim P] (algorithm : BellmanFordAlgorithm)
  (ctx : BellmanFordContext P) (overrides : MarketOverrides P)

/-- The candidate an edge offers, unless the edge is skipped: the path already holds its token
or component, the connector list refuses its token, its token or pool is unknown, or the
simulation fails. -/
def edgeCandidate (state : SpfaState) (source : NodeIndex) (tokenSource : Token)
    (target : NodeIndex) (component : ComponentId) : Option Candidate :=
  if pathHasConflict state.predecessor target component ctx.maxIdx source ≠ some false then none
  else if !algorithm.connectorAllows ctx target then none
  else
    match ctx.tokenMap.lookup target, ctx.poolState overrides component with
    | some tokenTarget, some sim =>
      match getAmountOutGuarded sim (state.amount source) tokenSource tokenTarget with
      | .error _ => none
      | .ok result =>
        some {
          amount := result.amount
          gas := result.gas
          cumulGas := state.cumulGas source + result.gas
          spotProduct := computeEdgeSpotProduct (state.spotProduct source) component
            (ctx.nodeAddress.lookup source) (ctx.nodeAddress.lookup target) ctx.spotPrices
          tokenOut := tokenTarget }
    | _, _ => none

/-- Whether a candidate replaces what its target holds. Net amounts are compared when gas is
priced, both at the candidate's rate; gross amounts otherwise. -/
def isBetter (state : SpfaState) (target : NodeIndex) (candidate : Candidate) : Bool :=
  match ctx.gasPricing with
  | some (gasPrice, tokenPrices) =>
    let price := resolveTokenPrice (some candidate.tokenOut) (some tokenPrices)
      candidate.spotProduct (ctx.tokenMap.lookup ctx.tokenInNode)
    gasAdjustedAmount candidate.amount candidate.cumulGas gasPrice price >
      gasAdjustedAmount (state.amount target) (state.cumulGas target) gasPrice price
  | none => candidate.amount > state.amount target

/-- Whether simulating the edge shows the input to be dust: its own gas exceeds it, or, without
gas prices, the output is zero. -/
def showsDust (state : SpfaState) (source : NodeIndex) (tokenSource : Token)
    (candidate : Candidate) : Bool :=
  match ctx.gasPricing with
  | some (gasPrice, tokenPrices) =>
    let tokenIn := ctx.tokenMap.lookup ctx.tokenInNode
    let targetPrice := resolveTokenPrice (some candidate.tokenOut) (some tokenPrices)
      candidate.spotProduct tokenIn
    let sourcePrice := resolveTokenPrice (some tokenSource) (some tokenPrices)
      (state.spotProduct source) tokenIn
    gasAdjustedAmount candidate.amount candidate.cumulGas gasPrice targetPrice ≤ 0 &&
      gasAdjustedAmount (state.amount source) candidate.gas gasPrice sourcePrice ≤ 0
  | none => candidate.amount = 0

/-- Records a candidate as the best way to reach its target. -/
def SpfaState.write (state : SpfaState) (source target : NodeIndex) (component : ComponentId)
    (candidate : Candidate) : SpfaState :=
  { state with
    amount := Function.update state.amount target candidate.amount
    predecessor := Function.update state.predecessor target (some (source, component))
    edgeGas := Function.update state.edgeGas target candidate.gas
    cumulGas := Function.update state.cumulGas target candidate.cumulGas
    spotProduct := Function.update state.spotProduct target candidate.spotProduct
    nextActive := state.nextActive.insert target }

/-- Relaxes one edge. -/
def relaxEdge (source : NodeIndex) (tokenSource : Token) (state : SpfaState)
    (edge : NodeIndex × ComponentId) : SpfaState :=
  match edgeCandidate algorithm ctx overrides state source tokenSource edge.1 edge.2 with
  | none => state
  | some candidate =>
    let flagged := { state with
      inputBelowHopGas := state.inputBelowHopGas ||
        showsDust ctx state source tokenSource candidate }
    if isBetter ctx state edge.1 candidate then
      flagged.write source edge.1 edge.2 candidate
    else flagged

/-- Relaxes every edge of an active node. A node at zero, without metadata or without edges is
passed over. -/
def relaxNode (state : SpfaState) (source : NodeIndex) : SpfaState :=
  if state.amount source = 0 then state
  else
    match ctx.tokenMap.lookup source, ctx.adj.lookup source with
    | some tokenSource, some edges =>
      edges.foldl (relaxEdge algorithm ctx overrides source tokenSource) state
    | _, _ => state

/-- One round: the improved nodes are collected afresh. -/
def relaxRound (state : SpfaState) (active : List NodeIndex) : SpfaState :=
  active.foldl (relaxNode algorithm ctx overrides) { state with nextActive := [] }

/-- The rounds left to run. `timedOut round` says whether the deadline has passed when that
round would start. -/
def relaxRounds (timedOut : Nat → Bool) :
    Nat → Nat → SpfaState → List NodeIndex → SpfaState × Bool
  | 0, _, state, _ => (state, false)
  | rounds + 1, round, state, active =>
    if timedOut round then (state, true)
    else if active.isEmpty then (state, false)
    else
      let next := relaxRound algorithm ctx overrides state active
      relaxRounds timedOut rounds (round + 1) next (next.nextActive.insertionSort (· ≤ ·))

/-- Only the source token holds an amount. -/
def initialSpfa (amountIn : Nat) : SpfaState where
  amount := Function.update (fun _ => 0) ctx.tokenInNode amountIn
  predecessor := fun _ => none
  edgeGas := fun _ => 0
  cumulGas := fun _ => 0
  spotProduct := Function.update (fun _ => 0.0) ctx.tokenInNode 1.0
  inputBelowHopGas := false
  nextActive := []

/-- The relaxation pass: at most `maxHops` rounds from the source token. The flag says whether
it was cut short by the timeout. -/
def runSpfa (amountIn : Nat) (timedOut : Nat → Bool) : SpfaState × Bool :=
  relaxRounds algorithm ctx overrides timedOut algorithm.maxHops 0 (initialSpfa ctx amountIn)
    [ctx.tokenInNode]

/-! ## The run, step by step -/

/-- What the loop does next: start collecting a round's improved nodes, or relax an edge. -/
inductive SpfaStep
  | startRound
  | relax (source target : NodeIndex) (component : ComponentId)

/-- The state after a step. -/
def SpfaState.step (state : SpfaState) : SpfaStep → SpfaState
  | .startRound => { state with nextActive := [] }
  | .relax source target component =>
    match ctx.tokenMap.lookup source with
    | some tokenSource =>
      relaxEdge algorithm ctx overrides source tokenSource state (target, component)
    | none => state

/-- The relaxations of one active node. -/
def nodeSteps (state : SpfaState) (source : NodeIndex) : List (SpfaState × SpfaStep) :=
  if state.amount source = 0 then []
  else
    match ctx.tokenMap.lookup source, ctx.adj.lookup source with
    | some _, some edges =>
      traceFold (SpfaState.step algorithm ctx overrides) state
        (edges.map fun edge => .relax source edge.1 edge.2)
    | _, _ => []

/-- The relaxations of the active nodes of a round. -/
def roundSteps (state : SpfaState) : List NodeIndex → List (SpfaState × SpfaStep)
  | [] => []
  | source :: rest =>
    nodeSteps algorithm ctx overrides state source ++
      roundSteps (relaxNode algorithm ctx overrides state source) rest

/-- The steps of the rounds left to run. -/
def roundsSteps (timedOut : Nat → Bool) :
    Nat → Nat → SpfaState → List NodeIndex → List (SpfaState × SpfaStep)
  | 0, _, _, _ => []
  | rounds + 1, round, state, active =>
    if timedOut round then []
    else if active.isEmpty then []
    else
      let next := relaxRound algorithm ctx overrides state active
      (state, .startRound) ::
        roundSteps algorithm ctx overrides { state with nextActive := [] } active ++
        roundsSteps timedOut rounds (round + 1) next (next.nextActive.insertionSort (· ≤ ·))

/-- Every step of `runSpfa` with the state it starts from. -/
def spfaSteps (amountIn : Nat) (timedOut : Nat → Bool) : List (SpfaState × SpfaStep) :=
  roundsSteps algorithm ctx overrides timedOut algorithm.maxHops 0 (initialSpfa ctx amountIn)
    [ctx.tokenInNode]

/-! ## What a step writes -/

/-- A hop written into the arrays. -/
structure AcceptedHop where
  source : NodeIndex
  target : NodeIndex
  component : ComponentId
  candidate : Candidate

/-- The hop a step writes, if it writes one. -/
def SpfaState.accepted (state : SpfaState) : SpfaStep → Option AcceptedHop
  | .startRound => none
  | .relax source target component => do
      let tokenSource ← ctx.tokenMap.lookup source
      let candidate ← edgeCandidate algorithm ctx overrides state source tokenSource target
        component
      if isBetter ctx state target candidate then some ⟨source, target, component, candidate⟩
      else none

/-- What the pool of an edge pays for an amount of its source token: the output and the gas. -/
def hopAnswer (source target : NodeIndex) (component : ComponentId) (amountIn : Nat) :
    Option (Nat × Nat) :=
  match ctx.tokenMap.lookup source, ctx.tokenMap.lookup target,
      ctx.poolState overrides component with
  | some tokenSource, some tokenTarget, some sim =>
    match getAmountOutGuarded sim amountIn tokenSource tokenTarget with
    | .error _ => none
    | .ok result => some (result.amount, result.gas)
  | _, _, _ => none

variable {algorithm ctx overrides} {state : SpfaState} {step : SpfaStep} {hop : AcceptedHop}
  {source target : NodeIndex} {component : ComponentId} {tokenSource : Token}
  {candidate : Candidate}

/-- An edge offers a candidate only past the conflict check, and offers what its pool pays, with
the spot-price product of its hop. -/
theorem edgeCandidate_eq_some
    (offered : edgeCandidate algorithm ctx overrides state source tokenSource target component =
      some candidate) (known : ctx.tokenMap.lookup source = some tokenSource) :
    pathHasConflict state.predecessor target component ctx.maxIdx source = some false ∧
      hopAnswer ctx overrides source target component (state.amount source) =
        some (candidate.amount, candidate.gas) ∧
      candidate.spotProduct = computeEdgeSpotProduct (state.spotProduct source) component
        (ctx.nodeAddress.lookup source) (ctx.nodeAddress.lookup target) ctx.spotPrices := by
  unfold edgeCandidate at offered
  split at offered
  · cases offered
  · rename_i clear
    split at offered
    · cases offered
    · refine ⟨not_not.mp clear, ?_⟩
      unfold hopAnswer
      rw [known]
      cases targetKnown : ctx.tokenMap.lookup target with
      | none => simp [targetKnown] at offered
      | some tokenTarget =>
        cases pool : ctx.poolState overrides component with
        | none => simp [targetKnown, pool] at offered
        | some sim =>
          simp only [targetKnown, pool] at offered ⊢
          split at offered
          · cases offered
          · cases offered
            exact ⟨rfl, rfl⟩

section

variable (written : state.accepted algorithm ctx overrides step = some hop)
include written

/-- A written hop is the relaxed edge, with a candidate that improves its target. -/
theorem SpfaState.relax_of_accepted :
    step = .relax hop.source hop.target hop.component ∧ ∃ tokenSource,
      ctx.tokenMap.lookup hop.source = some tokenSource ∧
      edgeCandidate algorithm ctx overrides state hop.source tokenSource hop.target
        hop.component = some hop.candidate ∧
      isBetter ctx state hop.target hop.candidate = true := by
  cases step with
  | startRound => cases written
  | relax source target component =>
    simp only [SpfaState.accepted, Option.bind_eq_bind, Option.bind_eq_some_iff] at written
    obtain ⟨tokenSource, known, candidate, offered, better⟩ := written
    split at better
    · rename_i improves
      cases better
      exact ⟨rfl, tokenSource, known, offered, improves⟩
    · cases better

/-- A written hop is the relaxed edge; its chain is free of conflicts and its pool pays it. -/
theorem SpfaState.accepted_eq_some :
    step = .relax hop.source hop.target hop.component ∧
      pathHasConflict state.predecessor hop.target hop.component ctx.maxIdx hop.source =
        some false ∧
      hopAnswer ctx overrides hop.source hop.target hop.component (state.amount hop.source) =
        some (hop.candidate.amount, hop.candidate.gas) ∧
      hop.candidate.spotProduct = computeEdgeSpotProduct (state.spotProduct hop.source)
        hop.component (ctx.nodeAddress.lookup hop.source) (ctx.nodeAddress.lookup hop.target)
          ctx.spotPrices := by
  obtain ⟨relaxes, tokenSource, known, offered, _⟩ := relax_of_accepted written
  exact ⟨relaxes, edgeCandidate_eq_some offered known⟩

end

/-- A step that accepts nothing changes nothing that is held. -/
theorem SpfaState.step_of_accepted_none
    (idle : state.accepted algorithm ctx overrides step = none) :
    (state.step algorithm ctx overrides step).amount = state.amount ∧
      (state.step algorithm ctx overrides step).predecessor = state.predecessor ∧
      (state.step algorithm ctx overrides step).edgeGas = state.edgeGas ∧
      (state.step algorithm ctx overrides step).spotProduct = state.spotProduct := by
  cases step with
  | startRound => exact ⟨rfl, rfl, rfl, rfl⟩
  | relax source target component =>
    simp only [SpfaState.accepted, SpfaState.step, relaxEdge] at idle ⊢
    cases known : ctx.tokenMap.lookup source with
    | none => exact ⟨rfl, rfl, rfl, rfl⟩
    | some tokenSource =>
      simp only
      cases offered : edgeCandidate algorithm ctx overrides state source tokenSource target
          component with
      | none => exact ⟨rfl, rfl, rfl, rfl⟩
      | some candidate =>
        have worse : isBetter ctx state target candidate = false := by
          simpa [known, offered] using idle
        simp [worse]

/-- A step that writes a hop changes the arrays at its target only. -/
theorem SpfaState.step_of_accepted_some
    (written : state.accepted algorithm ctx overrides step = some hop) :
    (state.step algorithm ctx overrides step).amount =
        Function.update state.amount hop.target hop.candidate.amount ∧
      (state.step algorithm ctx overrides step).predecessor =
        Function.update state.predecessor hop.target (some (hop.source, hop.component)) ∧
      (state.step algorithm ctx overrides step).edgeGas =
        Function.update state.edgeGas hop.target hop.candidate.gas ∧
      (state.step algorithm ctx overrides step).spotProduct =
        Function.update state.spotProduct hop.target hop.candidate.spotProduct := by
  obtain ⟨rfl, tokenSource, known, offered, improves⟩ := relax_of_accepted written
  simp [SpfaState.step, known, relaxEdge, offered, improves, SpfaState.write]

/-! ## The listed steps make up the run -/

private theorem nodeSteps_trace (state : SpfaState) (source : NodeIndex) :
    Trace (SpfaState.step algorithm ctx overrides) state
      (nodeSteps algorithm ctx overrides state source)
      (relaxNode algorithm ctx overrides state source) := by
  unfold nodeSteps relaxNode
  split
  · exact .nil state
  · cases known : ctx.tokenMap.lookup source with
    | none => exact .nil state
    | some tokenSource =>
      cases ctx.adj.lookup source with
      | none => exact .nil state
      | some edges =>
        have trace := Trace.fold (SpfaState.step algorithm ctx overrides) state
          (edges.map fun edge => SpfaStep.relax source edge.1 edge.2)
        simpa only [foldl_map, SpfaState.step, known] using trace

/-- A source is in its own path, so relaxing its edges leaves its amount alone. -/
theorem SpfaState.step_amount_source :
    (state.step algorithm ctx overrides (.relax source target component)).amount source =
      state.amount source := by
  cases outcome : state.accepted algorithm ctx overrides (.relax source target component) with
  | none => rw [(SpfaState.step_of_accepted_none outcome).1]
  | some hop =>
    obtain ⟨named, clear, -⟩ := SpfaState.accepted_eq_some outcome
    cases named
    have other : hop.source ≠ hop.target := by
      intro same
      have bound : 0 < ctx.maxIdx := Nat.zero_lt_of_lt ctx.tokenInNode_lt
      obtain ⟨steps, long⟩ := Nat.exists_eq_succ_of_ne_zero bound.ne'
      simp [long, pathHasConflict, same] at clear
    rw [(SpfaState.step_of_accepted_some outcome).1, Function.update_of_ne other]

/-- The guards a listed relaxation has passed: its source holds an amount and its edge is in
the adjacency. -/
def SpfaStep.Guarded (ctx : BellmanFordContext P) (state : SpfaState) : SpfaStep → Prop
  | .startRound => True
  | .relax source target component =>
    state.amount source ≠ 0 ∧
      ∃ edges, ctx.adj.lookup source = some edges ∧ (target, component) ∈ edges

private theorem nodeSteps_guarded (state : SpfaState) (source : NodeIndex) :
    ∀ entry ∈ nodeSteps algorithm ctx overrides state source, entry.2.Guarded ctx entry.1 := by
  unfold nodeSteps
  split
  · simp
  · rename_i nonzero
    cases ctx.tokenMap.lookup source with
    | none => simp
    | some tokenSource =>
      cases listed : ctx.adj.lookup source with
      | none => simp
      | some edges =>
        have relaxes : ∀ entry ∈ traceFold (SpfaState.step algorithm ctx overrides) state
            (edges.map fun edge => .relax source edge.1 edge.2),
            ∃ edge ∈ edges, .relax source edge.1 edge.2 = entry.2 := fun entry member => by
          simpa using Trace.step_mem_of_mem_traceFold member
        obtain ⟨along, -⟩ := (Trace.fold (SpfaState.step algorithm ctx overrides) state
          (edges.map fun edge => .relax source edge.1 edge.2)).invariant
          (fun later => later.amount source ≠ 0) nonzero (by
            rintro ⟨later, action⟩ member kept
            obtain ⟨edge, -, rfl⟩ := relaxes _ member
            rwa [SpfaState.step_amount_source])
        rintro ⟨later, action⟩ member
        obtain ⟨edge, inList, rfl⟩ := relaxes _ member
        exact ⟨(along _ member).1, edges, listed, inList⟩

private theorem roundSteps_trace_guarded (state : SpfaState) (active : List NodeIndex) :
    Trace (SpfaState.step algorithm ctx overrides) state
        (roundSteps algorithm ctx overrides state active)
        (active.foldl (relaxNode algorithm ctx overrides) state) ∧
      ∀ entry ∈ roundSteps algorithm ctx overrides state active, entry.2.Guarded ctx entry.1 := by
  induction active generalizing state with
  | nil => exact ⟨.nil state, by simp [roundSteps]⟩
  | cons source rest ih =>
    obtain ⟨trace, guarded⟩ := ih (relaxNode algorithm ctx overrides state source)
    exact ⟨(nodeSteps_trace state source).append trace,
      forall_mem_append.mpr ⟨nodeSteps_guarded state source, guarded⟩⟩

private theorem roundsSteps_trace_guarded (timedOut : Nat → Bool) (rounds round : Nat)
    (state : SpfaState) (active : List NodeIndex) :
    Trace (SpfaState.step algorithm ctx overrides) state
        (roundsSteps algorithm ctx overrides timedOut rounds round state active)
        (relaxRounds algorithm ctx overrides timedOut rounds round state active).1 ∧
      ∀ entry ∈ roundsSteps algorithm ctx overrides timedOut rounds round state active,
        entry.2.Guarded ctx entry.1 := by
  induction rounds generalizing round state active with
  | zero => exact ⟨.nil state, by simp [roundsSteps]⟩
  | succ rounds ih =>
    unfold roundsSteps relaxRounds
    split
    · exact ⟨.nil state, by simp⟩
    · split
      · exact ⟨.nil state, by simp⟩
      · refine ⟨.cons ((roundSteps_trace_guarded _ active).1.append (ih _ _ _).1), ?_⟩
        refine forall_mem_cons.mpr ⟨trivial, forall_mem_append.mpr ⟨?_, (ih _ _ _).2⟩⟩
        exact (roundSteps_trace_guarded _ active).2

/-- The steps of a run lead from its start to its end. -/
theorem spfaSteps_trace (amountIn : Nat) (timedOut : Nat → Bool) :
    Trace (SpfaState.step algorithm ctx overrides) (initialSpfa ctx amountIn)
      (spfaSteps algorithm ctx overrides amountIn timedOut)
      (runSpfa algorithm ctx overrides amountIn timedOut).1 :=
  (roundsSteps_trace_guarded ..).1

/-- Every step of a run passed the checks of the relaxation. -/
theorem spfaSteps_guarded (amountIn : Nat) (timedOut : Nat → Bool) :
    ∀ entry ∈ spfaSteps algorithm ctx overrides amountIn timedOut, entry.2.Guarded ctx entry.1 :=
  (roundsSteps_trace_guarded ..).2

end Fynd
