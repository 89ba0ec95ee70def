import Fynd.Foundation.TokenFlow
import Fynd.Split.PlanSteps

/-!
# A split plan in progress

While a plan runs, it is a flow of tokens through merged swaps. A token that is taken is
taken by its whole branch after all that pays it, and every swap is paid what its pool
answers after the swaps before it.
-/

namespace Fynd

open Foundation List

variable {P : Type}

/-! ## What the swaps did -/

/-- The token a merged swap takes. -/
def HopKey.taken (key : HopKey) : Address := key.2.1

/-- The token a merged swap pays. -/
def HopKey.paid (key : HopKey) : Address := key.2.2

/-- The pool, after swaps that ran through it. -/
def poolAfter [ProtocolSim P] (market : MarketState P) (baseOverrides : MarketOverrides P)
    (earlier : List (SimulatedSplitSwap P)) (componentId : ComponentId) : Option P :=
  (earlier.filter fun swap => swap.hop.componentId = componentId).foldl
    (fun held swap => held.bind fun sim =>
      (getAmountOutGuarded sim swap.amountIn swap.hop.tokenIn swap.hop.tokenOut).toOption.map
        GetAmountOutResult.newState)
    (poolAtStart market baseOverrides componentId)

/-- Every swap was paid what its pool answers after the swaps before it. -/
def AnswersInOrder [ProtocolSim P] (market : MarketState P) (baseOverrides : MarketOverrides P)
    (swaps : List (SimulatedSplitSwap P)) : Prop :=
  ∀ before swap after, swaps = before ++ swap :: after → ∃ sim result,
    poolAfter market baseOverrides before swap.hop.componentId = some sim ∧
    getAmountOutGuarded sim swap.amountIn swap.hop.tokenIn swap.hop.tokenOut = .ok result ∧
    swap.amountOut = result.amount

/-- What swaps take of a token. -/
def consumedOf (swaps : List (SimulatedSplitSwap P)) (token : Address) : Nat :=
  ((swaps.filter fun swap => swap.hop.tokenIn.address = token).map
    SimulatedSplitSwap.amountIn).sum

/-- What swaps pay into a token. -/
def producedOf (swaps : List (SimulatedSplitSwap P)) (token : Address) : Nat :=
  ((swaps.filter fun swap => swap.hop.tokenOut.address = token).map
    SimulatedSplitSwap.amountOut).sum

/-! ## A plan in progress -/

/-- What the swaps still to run take of a token. -/
def openAmount (todo : List SplitSwap) (token : Address) : Nat :=
  ((todo.filter fun swap => swap.hop.tokenIn.address = token).map SplitSwap.amountIn).sum

/-- The merged swaps that have not run. -/
def PlanState.pending (state : PlanState P) (todo : List SplitSwap) : List SplitSwap :=
  todo ++ waiting state.hopsByToken

/-- The tokens that are taken. -/
def PlanState.taken (state : PlanState P) (todo : List SplitSwap) : List Address :=
  (state.swaps.map fun swap => swap.hop.tokenIn.address) ++
    todo.map fun swap => swap.hop.tokenIn.address

/-- A plan as a flow of tokens through merged swaps. -/
def PlanState.flow (state : PlanState P) (todo : List SplitSwap) : Flow HopKey Address where
  ran := state.swaps.map fun swap => ⟨hopKey swap.hop, swap.amountIn, swap.amountOut⟩
  pending := (state.pending todo).map fun swap => hopKey swap.hop
  balance := balanceAt state.balances

variable (swaps : List (SimulatedSplitSwap P)) (token : Address)

theorem takenFrom_flow : takenFrom HopKey.taken
      (swaps.map fun swap => ⟨hopKey swap.hop, swap.amountIn, swap.amountOut⟩) token =
        consumedOf swaps token := by
  rw [takenFrom, filter_map, map_map]
  rfl

theorem paidTo_flow : paidTo HopKey.paid
      (swaps.map fun swap => ⟨hopKey swap.hop, swap.amountIn, swap.amountOut⟩) token =
        producedOf swaps token := by
  rw [paidTo, filter_map, map_map]
  rfl

/-- What holds of a plan while some swaps of a branch are still to run. -/
structure InProgress [ProtocolSim P] (market : MarketState P)
    (baseOverrides : MarketOverrides P) (initial : Address → Nat) (keys : List HopKey)
    (state : PlanState P) (todo : List SplitSwap) : Prop where
  conserves : (state.flow todo).Conserves HopKey.taken HopKey.paid initial keys
  filed : Filed state.hopsByToken
  counted : ∀ token, balanceAt state.inDegree token = payersOf (state.pending todo) token
  /-- Nothing more is paid into a token that is released or taken. -/
  complete : ∀ token ∈ state.ready ++ state.taken todo, payersOf (state.pending todo) token = 0
  /-- A token that is taken is taken by its whole branch, to the last unit. -/
  settled : ∀ token ∈ state.taken todo, state.hopsByToken.lookup token = none ∧
    balanceAt state.balances token = openAmount todo token
  answered : AnswersInOrder market baseOverrides state.swaps
  held : ∀ componentId, (state.postSwap.lookup componentId).or
    (poolAtStart market baseOverrides componentId) =
      poolAfter market baseOverrides state.swaps componentId

private theorem openAmount_of_forall {todo : List SplitSwap} {token : Address}
    (takes : ∀ swap ∈ todo, swap.hop.tokenIn.address = token) (other : Address) :
    openAmount todo other = if other = token then (todo.map SplitSwap.amountIn).sum else 0 := by
  unfold openAmount
  split
  · rename_i same
    have all : (todo.filter fun swap => swap.hop.tokenIn.address = other) = todo := by
      rw [filter_eq_self]
      intro swap member
      simpa [same] using takes swap member
    rw [all]
  · rename_i differs
    have none : (todo.filter fun swap => swap.hop.tokenIn.address = other) = [] := by
      rw [filter_eq_nil_iff]
      intro swap member
      simpa [takes swap member] using Ne.symm differs
    rw [none]
    rfl

private theorem openAmount_cons (swap : SplitSwap) (todo : List SplitSwap) (token : Address) :
    openAmount (swap :: todo) token =
      (if swap.hop.tokenIn.address = token then swap.amountIn else 0) + openAmount todo token := by
  by_cases here : swap.hop.tokenIn.address = token <;> simp [openAmount, here]

section StartBranch

variable {state : PlanState P} {token : Address} {branch sized : List SplitSwap}
  (found : state.hopsByToken.lookup token = some branch)
  (hops : (sized.map SplitSwap.hop).Perm (branch.map SplitSwap.hop))
include found hops

theorem perm_pending_startBranch :
    ((sized ++ waiting (state.hopsByToken.erase token)).map SplitSwap.hop).Perm
      ((state.pending []).map SplitSwap.hop) := by
  have rest := (waiting_erase state.hopsByToken token).map SplitSwap.hop
  rw [found, Option.getD_some, map_append] at rest
  rw [map_append]
  exact (hops.append_right _).trans rest

variable (filed : Filed state.hopsByToken)
include filed

private theorem takes_startBranch : ∀ swap ∈ sized, swap.hop.tokenIn.address = token := by
  intro swap member
  obtain ⟨other, here, same⟩ := mem_map.mp (hops.subset (mem_map.mpr ⟨swap, member, rfl⟩))
  rw [← same]
  exact (filed token branch found).2 other here

theorem mem_taken_startBranch {other : Address} (used : other ∈ state.taken sized) :
    other ∈ state.taken [] ∨ other = token := by
  rcases mem_append.mp used with ran | now
  · exact .inl (mem_append_left _ ran)
  · obtain ⟨swap, member, rfl⟩ := mem_map.mp now
    exact .inr (takes_startBranch found hops filed swap member)

end StartBranch

section Answers

variable [ProtocolSim P] {market : MarketState P}
  {baseOverrides : MarketOverrides P} {swaps : List (SimulatedSplitSwap P)}
  {swap : SimulatedSplitSwap P} {sim : P} {result : GetAmountOutResult P}
  (held : poolAfter market baseOverrides swaps swap.hop.componentId = some sim)
  (answer : getAmountOutGuarded sim swap.amountIn swap.hop.tokenIn swap.hop.tokenOut = .ok result)
include held answer

private theorem poolAfter_concat (componentId : ComponentId) :
    poolAfter market baseOverrides (swaps ++ [swap]) componentId =
      if componentId = swap.hop.componentId then some result.newState
      else poolAfter market baseOverrides swaps componentId := by
  unfold poolAfter at held ⊢
  rw [filter_append]
  by_cases same : componentId = swap.hop.componentId
  · subst same
    rw [if_pos rfl]
    simp only [filter_singleton, decide_true, foldl_append]
    rw [held]
    simp [answer, Except.toOption]
  · simp [same, Ne.symm same]

private theorem AnswersInOrder.concat (answered : AnswersInOrder market baseOverrides swaps)
    (paid : swap.amountOut = result.amount) :
    AnswersInOrder market baseOverrides (swaps ++ [swap]) := by
  intro before other after place
  rcases place_concat place with ⟨rfl, rfl, _⟩ | ⟨rest, _, earlier⟩
  · exact ⟨sim, result, held, answer, paid⟩
  · exact answered before other rest earlier

end Answers

section Steps

variable [ProtocolSim P] {symbol : Token → String} {paths : List PathAllocation}
  {market : MarketState P} {baseOverrides : MarketOverrides P}
  {capture : StateCapture} {initial : Address → Nat} {keys : List HopKey}
  {state next final : PlanState P} {todo : List SplitSwap}

/-- A swap that runs is a step of the flow. -/
theorem RanSwap.fires {swap : SplitSwap} {executed : SimulatedSplitSwap P}
    (ran : RanSwap market baseOverrides state swap executed next)
    (complete : payersOf (state.pending (swap :: todo)) swap.hop.tokenIn.address = 0) :
    (state.flow (swap :: todo)).Fires HopKey.taken HopKey.paid
      ⟨hopKey swap.hop, swap.amountIn, executed.amountOut⟩ (next.flow todo) where
  left := by
    simp [PlanState.flow, PlanState.pending, ran.hopsByToken]
  complete := by
    intro other member
    obtain ⟨payer, waits, rfl⟩ := mem_map.mp member
    exact payersOf_eq_zero_iff.mp complete payer waits
  covered := ran.covered
  ran := by
    simp [PlanState.flow, ran.swaps, ran.hop, ran.amountIn]
  balance := ran.balances

namespace RanSwap

variable {swap : SplitSwap} {executed : SimulatedSplitSwap P}
  (ran : RanSwap market baseOverrides state swap executed next)

include ran

private theorem mem_taken (token : Address) :
    token ∈ next.taken todo ↔ token ∈ state.taken (swap :: todo) := by
  simp [PlanState.taken, ran.swaps, ran.hop]

private theorem payersOf_pending (token : Address) :
    payersOf (state.pending (swap :: todo)) token =
      payersOf (next.pending todo) token +
        if token = swap.hop.tokenOut.address then 1 else 0 := by
  rw [PlanState.pending, cons_append, payersOf_cons, PlanState.pending, ran.hopsByToken]

/-- The in-degrees count the swaps that are left. -/
theorem counted (before : ∀ token,
      balanceAt state.inDegree token = payersOf (state.pending (swap :: todo)) token)
    (token : Address) : balanceAt next.inDegree token = payersOf (next.pending todo) token := by
  rw [ran.inDegree, balanceAt_release, before, ran.payersOf_pending]
  omega

/-- No swap that is left pays a token that is ready or taken, apart from exempt ones. -/
theorem complete (exempt : Address → Prop) (before : ∀ token,
      balanceAt state.inDegree token = payersOf (state.pending (swap :: todo)) token)
    (complete : ∀ token ∈ state.ready ++ state.taken (swap :: todo),
      exempt token ∨ payersOf (state.pending (swap :: todo)) token = 0)
    (token : Address) (member : token ∈ next.ready ++ next.taken todo) :
    exempt token ∨ payersOf (next.pending todo) token = 0 := by
  have earlier (listed : token ∈ state.ready ++ state.taken (swap :: todo)) :
      exempt token ∨ payersOf (next.pending todo) token = 0 := by
    refine (complete token listed).imp_right fun none => ?_
    rw [ran.payersOf_pending] at none
    omega
  rcases mem_append.mp member with ready | used
  · rw [ran.ready] at ready
    rcases mem_release ready with waited | last
    · exact earlier (mem_append_left _ waited)
    · right
      rw [← ran.counted before, ran.inDegree]
      exact last
  · exact earlier (mem_append_right _ ((ran.mem_taken token).mp used))

/-- What is left at a token that is taken is what the other swaps of its branch take. -/
theorem settled {token : Address} (unpaid : payersOf (state.pending (swap :: todo)) token = 0)
    (left : balanceAt state.balances token = openAmount (swap :: todo) token) :
    balanceAt next.balances token = openAmount todo token := by
  have apart : swap.hop.tokenOut.address ≠ token :=
    payersOf_eq_zero_iff.mp unpaid swap (by simp [PlanState.pending])
  rw [ran.balances, left, openAmount_cons, if_neg apart]
  omega

/-- The swap was paid by the pool as the earlier swaps left it, and leaves it as it answered. -/
theorem answers (held : ∀ componentId, (state.postSwap.lookup componentId).or
      (poolAtStart market baseOverrides componentId) =
        poolAfter market baseOverrides state.swaps componentId)
    (answered : AnswersInOrder market baseOverrides state.swaps) :
    AnswersInOrder market baseOverrides next.swaps ∧ ∀ componentId,
      (next.postSwap.lookup componentId).or (poolAtStart market baseOverrides componentId) =
        poolAfter market baseOverrides next.swaps componentId := by
  obtain ⟨sim, result, found, answer, paid, post⟩ := ran.answered
  rw [held, ← ran.hop] at found
  rw [← ran.hop, ← ran.amountIn] at answer
  rw [ran.swaps]
  refine ⟨answered.concat found answer paid, fun componentId => ?_⟩
  rw [poolAfter_concat found answer, ran.hop, post, lookup_insert_ite]
  split
  · rfl
  · exact held componentId

end RanSwap

/-- **One swap.** -/
theorem InProgress.runSwap {sized : SizedSwap}
    (progress : InProgress market baseOverrides initial keys state (sized.1 :: todo))
    (run : Fynd.runSwap symbol market baseOverrides capture state sized = .ok next) :
    InProgress market baseOverrides initial keys next todo := by
  obtain ⟨executed, ran⟩ := runSwap_eq_ok run
  have here : sized.1.hop.tokenIn.address ∈ state.taken (sized.1 :: todo) := by
    simp [PlanState.taken]
  have answers := ran.answers progress.held progress.answered
  exact {
    conserves := progress.conserves.fire (ran.fires (progress.complete _
      (mem_append_right _ here)))
    filed := ran.hopsByToken ▸ progress.filed
    counted := ran.counted progress.counted
    complete := fun token member => (ran.complete (fun _ => False) progress.counted
      (fun token listed => .inr (progress.complete token listed)) token member).resolve_left id
    settled := by
      intro token used
      have earlier := (ran.mem_taken token).mp used
      obtain ⟨erased, left⟩ := progress.settled token earlier
      have unpaid := progress.complete token (mem_append_right _ earlier)
      exact ⟨ran.hopsByToken ▸ erased, ran.settled unpaid left⟩
    answered := answers.1
    held := answers.2 }

/-- The swaps of a branch, one after another. -/
theorem InProgress.runSwaps {sized : List SizedSwap}
    (progress : InProgress market baseOverrides initial keys state (sized.map Prod.fst))
    (run : sized.foldlM (Fynd.runSwap symbol market baseOverrides capture) state = .ok next) :
    InProgress market baseOverrides initial keys next [] := by
  refine foldlM_invariant (fun reached rest =>
    InProgress market baseOverrides initial keys reached (rest.map Prod.fst)) ?_ progress run
  intro reached swap rest after before first
  exact before.runSwap first

variable (progress : InProgress market baseOverrides initial keys state [])
include progress

/-- A token is released, and its branch is divided. -/
theorem InProgress.startBranch {token : Address} {ready : List Address} {branch : List SplitSwap}
    {ledger : PathLedger} {sized : List SplitSwap} (released : state.ready = token :: ready)
    (found : state.hopsByToken.lookup token = some branch)
    (hops : (sized.map SplitSwap.hop).Perm (branch.map SplitSwap.hop))
    (all : (sized.map SplitSwap.amountIn).sum = balanceAt state.balances token) :
    InProgress market baseOverrides initial keys
      { state with ready := ready, hopsByToken := state.hopsByToken.erase token, ledger := ledger }
      sized := by
  have listed := perm_pending_startBranch found hops
  exact { progress with
    conserves := by
      have keyed := listed.map hopKey
      rw [map_map, map_map] at keyed
      exact progress.conserves.perm keyed
    filed := progress.filed.erase token
    counted := by
      intro other
      rw [PlanState.pending, payersOf_perm listed]
      exact progress.counted other
    complete := by
      intro other member
      rw [PlanState.pending, payersOf_perm listed]
      apply progress.complete other
      rcases mem_append.mp member with waits | used
      · simp [released, waits]
      · rcases mem_taken_startBranch found hops progress.filed used with earlier | rfl
        · exact mem_append_right _ earlier
        · simp [released]
    settled := by
      intro other used
      dsimp only
      rw [lookup_erase_ite, openAmount_of_forall (takes_startBranch found hops progress.filed)]
      rcases mem_taken_startBranch found hops progress.filed used with earlier | rfl
      · obtain ⟨erased, left⟩ := progress.settled other earlier
        have apart : other ≠ token := by
          rintro rfl
          rw [found] at erased
          cases erased
        rw [if_neg apart, if_neg apart]
        exact ⟨erased, left⟩
      · rw [if_pos rfl, if_pos rfl]
        exact ⟨rfl, all.symm⟩ }

/-- A token that no swap takes is passed over. -/
theorem InProgress.pass {token : Address} {ready : List Address}
    (released : state.ready = token :: ready) :
    InProgress market baseOverrides initial keys { state with ready := ready } [] :=
  { progress with
    complete := by
      intro other member
      apply progress.complete other
      rw [released, cons_append]
      exact mem_cons_of_mem _ member }

/-- **A whole run.** -/
theorem InProgress.runReady {fuel : Nat}
    (run : Fynd.runReady symbol paths market baseOverrides capture fuel state = .ok final) :
    InProgress market baseOverrides initial keys final [] := by
  refine runReady_invariant (fun state => InProgress market baseOverrides initial keys state [])
    ?_ ?_ progress run
  · intro state token ready before released _
    exact before.pass released
  · intro state token ready branch sized next before released found divided swapped
    obtain ⟨hops, all⟩ := amountsForBranch_eq_ok divided
    exact (before.startBranch released found hops all).runSwaps swapped

end Steps

end Fynd
