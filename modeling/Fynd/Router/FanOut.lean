import Fynd.Router.Solve

/-!
# Fanning an order out

An order goes to the worker pools allocated to it. The router collects their answers until enough
are in, until all are in, or until the deadline, when the pools that are left are reported as timed
out. So no pool is reported twice, and none is left out unless the router had enough.
-/

namespace Fynd

open List

variable {P : Type}

/-- The names of the worker pools selected for an order. -/
def Allocation.names (allocation : Allocation) : List String :=
  allocation.workerPools.map SolverPoolHandle.name

/-- What a worker pool answers, under its name. -/
abbrev PoolAnswer (P : Type) := String × Except SolveError (OrderQuote P)

/-- What the outside contributes to a fan-out: the answers that come in, one by one, whether the
deadline passes after them and how long that took, and the order in which a set is drained. -/
structure Arrivals (P : Type) (names : List String) where
  answers : List (PoolAnswer P)
  elapsedMs : Option Nat
  drain : List String → List String
  once : (answers.map Prod.fst).Subperm names
  all : elapsedMs = none → (answers.map Prod.fst).Perm names
  drains : ∀ left, (drain left).Perm left

/-- The loop that collects answers. -/
structure FanOut (P : Type) where
  quotes : List (WorkerPoolQuote P)
  failedSolvers : List (String × SolveError)
  remainingWorkerPools : List String
  hasPublicResponse : Bool
  hasExclusiveAccessResponse : Bool

namespace FanOut

/-- Before the first answer. -/
def start (allocation : Allocation) : FanOut P :=
  ⟨[], [], allocation.names.dedup, false, false⟩

/-- Takes an answer in. A failed pool that may use exclusive liquidity counts as a response. -/
def receive (allocation : Allocation) (state : FanOut P) :
    PoolAnswer P → FanOut P
  | (workerPool, .ok quote) =>
    let exclusive := includesExclusive allocation.scopes workerPool
    { quotes := state.quotes ++ [⟨workerPool, quote⟩]
      failedSolvers := state.failedSolvers
      remainingWorkerPools := state.remainingWorkerPools.erase workerPool
      hasPublicResponse := state.hasPublicResponse || !exclusive
      hasExclusiveAccessResponse := state.hasExclusiveAccessResponse || exclusive }
  | (workerPool, .error error) =>
    { state with
      failedSolvers := state.failedSolvers ++ [(workerPool, error)]
      remainingWorkerPools := state.remainingWorkerPools.erase workerPool
      hasExclusiveAccessResponse := state.hasExclusiveAccessResponse ||
        includesExclusive allocation.scopes workerPool }

/-- Whether enough answers are in, of both kinds where exclusive routing is active. -/
def isReady (allocation : Allocation) (minResponses : Nat) (state : FanOut P) : Bool :=
  let scopeReady := if allocation.exclusiveRoutingActive then
    state.hasPublicResponse && state.hasExclusiveAccessResponse else true
  minResponses > 0 && state.quotes.length ≥ minResponses && scopeReady

/-- Takes answers in until there are enough, and tells whether there were. -/
def collect (allocation : Allocation) (minResponses : Nat) :
    FanOut P → List (PoolAnswer P) → FanOut P × Bool
  | state, [] => (state, false)
  | state, answer :: rest =>
    let next := state.receive allocation answer
    -- An error ends nothing, even where it is the last answer that was waited for.
    if answer.2.isOk && next.isReady allocation minResponses then (next, true)
    else next.collect allocation minResponses rest

end FanOut

/-- Solves an order by fanning it out, and tells whether the router returned early. -/
def solveOrder (orderId : String) (minResponses : Nat) (allocation : Allocation)
    (arrivals : Arrivals P allocation.names) : OrderResponses P × Bool :=
  let (collected, early) :=
    (FanOut.start allocation).collect allocation minResponses arrivals.answers
  let timedOut := if early then [] else arrivals.elapsedMs.elim [] fun elapsedMs =>
    (arrivals.drain collected.remainingWorkerPools).map fun name => (name, .timeout elapsedMs)
  (⟨orderId, collected.quotes, collected.failedSolvers ++ timedOut⟩, early)

/-- The worker pools that are reported on. -/
def OrderResponses.reported (responses : OrderResponses P) : List String :=
  responses.quotes.map WorkerPoolQuote.workerPool ++ responses.failedSolvers.map Prod.fst

/-- Every allocated pool is reported at most once, and exactly once unless the router returned
early. No other pool is reported. An early return has enough quotes, and where a pool that may use
exclusive liquidity was allocated, answers of both kinds. -/
structure AccountsExactly (workerPools : List SolverPoolHandle) (orderClass : OrderClass)
    (allocation : Allocation) (minResponses : Nat) (result : OrderResponses P × Bool) : Prop where
  once : result.1.reported.Nodup
  all : result.2 = false → ∀ name ∈ allocation.names, name ∈ result.1.reported
  allocated : ∀ name ∈ result.1.reported, ∃ pool ∈ allocation.workerPools, pool.name = name
  denied : orderClass.exclusiveAccess = .denied → ∀ pool ∈ workerPools,
    pool.liquidityScope = .includeExclusive → pool.name ∉ result.1.reported
  enough : result.2 = true → 0 < minResponses ∧ minResponses ≤ result.1.quotes.length
  bothKinds : result.2 = true →
    (∃ pool ∈ allocation.workerPools, pool.liquidityScope = .includeExclusive) →
      (∃ pool ∈ allocation.workerPools, pool.liquidityScope = .publicOnly ∧
        pool.name ∈ result.1.quotes.map WorkerPoolQuote.workerPool) ∧
      ∃ pool ∈ allocation.workerPools, pool.liquidityScope = .includeExclusive ∧
        pool.name ∈ result.1.reported

/-! ## The loop -/

/-- What the loop has after the answers of some pools. -/
structure FanOut.Collected (allocation : Allocation) (names : List String)
    (state : FanOut P) : Prop where
  reported : (OrderResponses.mk "" state.quotes state.failedSolvers).reported.Perm names
  remaining : state.remainingWorkerPools = allocation.names.dedup.diff names
  publicOne : state.hasPublicResponse = true →
    ∃ answer ∈ state.quotes, includesExclusive allocation.scopes answer.workerPool = false
  exclusiveOne : state.hasExclusiveAccessResponse = true →
    ∃ name ∈ names, includesExclusive allocation.scopes name = true

section Loop

variable {allocation : Allocation} {names : List String} {state : FanOut P}
  (collected : FanOut.Collected allocation names state)
include collected

private theorem FanOut.Collected.receive (answer : PoolAnswer P) :
    FanOut.Collected allocation (names ++ [answer.1]) (state.receive allocation answer) := by
  obtain ⟨workerPool, outcome⟩ := answer
  have exclusive : (state.hasExclusiveAccessResponse ||
      includesExclusive allocation.scopes workerPool) = true →
        ∃ name ∈ names ++ [workerPool], includesExclusive allocation.scopes name = true := by
    intro some
    rcases Bool.or_eq_true_iff.mp some with before | now
    · obtain ⟨name, member, marked⟩ := collected.exclusiveOne before
      exact ⟨name, mem_append_left _ member, marked⟩
    · exact ⟨workerPool, by simp, now⟩
  have remaining : state.remainingWorkerPools.erase workerPool =
      allocation.names.dedup.diff (names ++ [workerPool]) := by
    rw [diff_append, ← collected.remaining, diff_cons, diff_nil]
  have reported := collected.reported.append_right [workerPool]
  unfold OrderResponses.reported at reported
  cases outcome with
  | ok quote =>
    refine ⟨?_, remaining, fun some => ?_, exclusive⟩
    · -- The quote comes before the failures, the name last among those heard of.
      refine .trans ?_ reported
      simp only [OrderResponses.reported, FanOut.receive, map_append, map_cons,
        map_nil, append_assoc]
      exact perm_append_comm.append_left _
    · rcases Bool.or_eq_true_iff.mp some with before | now
      · obtain ⟨other, member, unmarked⟩ := collected.publicOne before
        exact ⟨other, mem_append_left _ member, unmarked⟩
      · exact ⟨⟨workerPool, quote⟩, by simp [FanOut.receive], by simpa using now⟩
  | error error =>
    refine ⟨?_, remaining, collected.publicOne, exclusive⟩
    simpa [OrderResponses.reported, FanOut.receive] using reported

/-- The loop takes in the first answers, all of them unless it ends early, when enough are in. -/
theorem FanOut.Collected.collect (minResponses : Nat) (answers : List (PoolAnswer P)) :
    ∃ taken, taken <+: answers.map Prod.fst ∧
      FanOut.Collected allocation (names ++ taken)
        (state.collect allocation minResponses answers).1 ∧
      ((state.collect allocation minResponses answers).2 = false →
        taken = answers.map Prod.fst) ∧
      ((state.collect allocation minResponses answers).2 = true →
        (state.collect allocation minResponses answers).1.isReady allocation minResponses) := by
  induction answers generalizing state names with
  | nil =>
    refine ⟨[], nil_prefix, ?_, fun _ => rfl, nofun⟩
    rw [append_nil]
    exact collected
  | cons answer rest ih =>
    have received := collected.receive answer
    rw [FanOut.collect]
    split
    · rename_i enough
      refine ⟨[answer.1], by simp, received, nofun, fun _ => ?_⟩
      exact (Bool.and_eq_true_iff.mp enough).2
    · obtain ⟨taken, first, more, every, ready⟩ := ih received
      rw [append_assoc] at more
      refine ⟨answer.1 :: taken, by simpa using first, more, fun late => ?_, ready⟩
      rw [every late, map_cons]

end Loop

section Fanned

variable {allocation : Allocation} {minResponses : Nat} {orderId : String}
  (distinct : allocation.names.Nodup) (arrivals : Arrivals P allocation.names)
include distinct

/-- Either all allocated pools are reported, or the answers of some were enough. -/
theorem reported_solveOrder :
    let solved := solveOrder orderId minResponses allocation arrivals
    (solved.2 = false ∧ solved.1.reported.Perm allocation.names) ∨
    (solved.2 = true ∧
      ∃ (taken : List String) (state : FanOut P), taken.Subperm allocation.names ∧
        FanOut.Collected allocation taken state ∧ state.isReady allocation minResponses ∧
        solved.1 = ⟨orderId, state.quotes, state.failedSolvers⟩) := by
  have begins : FanOut.Collected allocation [] (FanOut.start allocation : FanOut P) :=
    ⟨List.Perm.refl _, rfl, nofun, nofun⟩
  obtain ⟨taken, first, collected, every, ready⟩ := begins.collect minResponses arrivals.answers
  unfold solveOrder
  cases ends : (FanOut.start allocation).collect allocation minResponses arrivals.answers with
  | mk state early =>
    rw [ends] at collected every ready
    cases early with
    | true =>
      refine .inr ⟨rfl, taken, state, ?_, collected, ready rfl, by simp⟩
      exact first.sublist.subperm.trans arrivals.once
    | false =>
      obtain rfl := every rfl
      refine .inl ⟨rfl, ?_⟩
      have reported := collected.reported
      unfold OrderResponses.reported at reported ⊢
      cases passed : arrivals.elapsedMs with
      | none => simpa using reported.trans (arrivals.all passed)
      | some elapsedMs =>
        have left : (arrivals.drain state.remainingWorkerPools).Perm
            (allocation.names.diff (arrivals.answers.map Prod.fst)) := by
          refine (arrivals.drains _).trans ?_
          rw [collected.remaining, distinct.dedup, nil_append]
        have whole := subperm_append_diff_self_of_count_le (subperm_ext_iff.mp arrivals.once)
        simpa [Function.comp_def] using (reported.append left).trans whole

end Fanned

/-! ## Which pools are reported -/

/-- An allocation that notes the scopes of its pools under their names. -/
structure Allocation.Scoped (allocation : Allocation) : Prop where
  distinct : allocation.names.Nodup
  scopes : ∀ pool ∈ allocation.workerPools,
    allocation.scopes.lookup pool.name = some pool.liquidityScope
  active : ∀ pool ∈ allocation.workerPools, pool.liquidityScope = .includeExclusive →
    allocation.exclusiveRoutingActive = true

section Allocated

variable {workerPools : List SolverPoolHandle} {orderClass : OrderClass}
  {poolAllowlist : Option (List String)}

private theorem sublist_allocate :
    (allocate workerPools orderClass poolAllowlist).workerPools.Sublist workerPools :=
  filter_sublist.trans filter_sublist

private theorem scoped_allocate (distinct : (workerPools.map SolverPoolHandle.name).Nodup) :
    (allocate workerPools orderClass poolAllowlist).Scoped := by
  have names : (allocate workerPools orderClass poolAllowlist).names.Nodup :=
    distinct.sublist (sublist_allocate.map _)
  have scopes : ∀ pool ∈ (allocate workerPools orderClass poolAllowlist).workerPools,
      (allocate workerPools orderClass poolAllowlist).scopes.lookup pool.name =
        some pool.liquidityScope := by
    intro pool member
    refine (lookup_mapOfList ?_).mpr (mem_map.mpr ⟨pool, member, rfl⟩)
    rw [map_map]
    exact names
  refine ⟨names, scopes, fun pool member exclusive => ?_⟩
  exact any_eq_true.mpr ⟨_, lookup_eq_some_iff.mp (scopes pool member), decide_eq_true exclusive⟩

end Allocated

/-- Where exclusive routing is active, enough answers are answers of both kinds. -/
theorem Allocation.Scoped.bothKinds {allocation : Allocation} (keyed : allocation.Scoped)
    {taken : List String} {state : FanOut P} {minResponses : Nat}
    (collected : FanOut.Collected allocation taken state) (within : taken ⊆ allocation.names)
    (ready : state.isReady allocation minResponses = true)
    (present : ∃ pool ∈ allocation.workerPools, pool.liquidityScope = .includeExclusive) :
    (∃ pool ∈ allocation.workerPools, pool.liquidityScope = .publicOnly ∧
      pool.name ∈ state.quotes.map WorkerPoolQuote.workerPool) ∧
    ∃ pool ∈ allocation.workerPools, pool.liquidityScope = .includeExclusive ∧
      pool.name ∈ taken := by
  obtain ⟨pool, member, exclusive⟩ := present
  simp only [FanOut.isReady, keyed.active pool member exclusive, if_true, Bool.and_eq_true] at ready
  obtain ⟨_, hasPublic, hasExclusive⟩ := ready
  constructor
  · obtain ⟨answer, quoted, unmarked⟩ := collected.publicOne hasPublic
    have quoted := mem_map_of_mem (f := WorkerPoolQuote.workerPool) quoted
    obtain ⟨other, allocated, same⟩ := mem_map.mp (within
      (collected.reported.mem_iff.mp (mem_append_left _ quoted)))
    rw [← same] at quoted unmarked
    rw [includesExclusive, keyed.scopes other allocated] at unmarked
    refine ⟨other, allocated, ?_, quoted⟩
    cases scope : other.liquidityScope with
    | publicOnly => rfl
    | includeExclusive => simp [scope] at unmarked
  · obtain ⟨name, answered, marked⟩ := collected.exclusiveOne hasExclusive
    obtain ⟨other, allocated, rfl⟩ := mem_map.mp (within answered)
    rw [includesExclusive, keyed.scopes other allocated] at marked
    exact ⟨other, allocated, by simpa using marked, answered⟩

/-- **The accounts of a fan-out are exact.** For all pools with distinct names, every class of
orders, allowlist and number of answers waited for, and however the answers come in. -/
theorem solveOrder_accountsExactly {workerPools : List SolverPoolHandle}
    (distinct : (workerPools.map SolverPoolHandle.name).Nodup) (orderClass : OrderClass)
    (poolAllowlist : Option (List String)) (orderId : String) (minResponses : Nat)
    (arrivals : Arrivals P (allocate workerPools orderClass poolAllowlist).names) :
    AccountsExactly workerPools orderClass (allocate workerPools orderClass poolAllowlist)
      minResponses (solveOrder orderId minResponses _ arrivals) := by
  have keyed := @scoped_allocate workerPools orderClass poolAllowlist distinct
  have ends := @reported_solveOrder _ _ minResponses orderId keyed.distinct arrivals
  generalize solveOrder orderId minResponses _ arrivals = result at ends ⊢
  have within : result.1.reported.Subperm
      (allocate workerPools orderClass poolAllowlist).names := by
    rcases ends with ⟨_, every⟩ | ⟨_, taken, state, some, collected, _, same⟩
    · exact every.subperm
    · rw [same]
      exact collected.reported.subperm.trans some
  have named := fun name member => mem_map.mp (@List.Subperm.subset _ _ _ within name member)
  refine ⟨?_, fun late name member => ?_, named, fun denied pool listed exclusive member => ?_,
    ?_, ?_⟩
  · obtain ⟨listed, same, sub⟩ := within
    exact same.nodup_iff.mp (keyed.distinct.sublist sub)
  · rcases ends with ⟨_, every⟩ | ⟨early, _⟩
    · exact every.mem_iff.mpr member
    · cases late.symm.trans early
  · obtain ⟨other, allocated, same⟩ := named _ member
    obtain rfl := inj_on_of_nodup_map distinct (sublist_allocate.subset allocated) listed same
    have serves := (mem_filter.mp (mem_filter.mp allocated).1).2
    simp [SolverPoolHandle.serves, exclusive, denied] at serves
  · intro early
    rcases ends with ⟨late, _⟩ | ⟨_, taken, state, _, _, ready, same⟩
    · cases late.symm.trans early
    · rw [same]
      simp only [FanOut.isReady, Bool.and_eq_true, decide_eq_true_eq] at ready
      exact ready.1
  · intro early present
    rcases ends with ⟨late, _⟩ | ⟨_, taken, state, some, collected, ready, same⟩
    · cases late.symm.trans early
    · obtain ⟨quoted, pool, member, exclusive, answered⟩ :=
        keyed.bothKinds collected some.subset ready present
      rw [same]
      exact ⟨quoted, pool, member, exclusive, collected.reported.mem_iff.mpr answered⟩

/-- A pool of each kind. -/
def publicAndExclusive : List SolverPoolHandle :=
  [⟨"public", .publicOnly, true⟩, ⟨"exclusive", .includeExclusive, true⟩]

/-- The exclusive pool fails, then the public one quotes. -/
def failureThenQuote :
    Arrivals Unit (allocate publicAndExclusive ⟨.granted, false⟩ none).names where
  answers := [("exclusive", .error .queueFull), ("public", .ok (singleRouteQuote ∅ 10000 9990))]
  elapsedMs := none
  drain := id
  once := (List.Perm.swap _ _ _).subperm
  all := fun _ => List.Perm.swap _ _ _
  drains := fun _ => List.Perm.refl _

/-- The failure counts as an answer, so one quote is enough. -/
theorem failure_then_quote_accounts :
    (solveOrder "" 1 _ failureThenQuote).2 = true ∧
      AccountsExactly publicAndExclusive ⟨.granted, false⟩
        (allocate publicAndExclusive ⟨.granted, false⟩ none) 1
        (solveOrder "" 1 _ failureThenQuote) :=
  ⟨by decide, solveOrder_accountsExactly (by decide) _ _ _ _ _⟩

end Fynd
