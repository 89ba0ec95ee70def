import Fynd.Derived.Schedule
import Fynd.Derived.SpotPrice
import Fynd.Foundation.History

/-!
# Rounds of the computation manager

A round announces its block and runs the registered computations stage by stage. A computation
whose requirements do not hold is reported as failed and does not run. The others of its stage
run together; their outputs are stored and reported before the next stage starts.
-/

namespace Fynd

open Foundation List

variable {Output : Type}

/-- Why a computation fails. -/
inductive ComputationError
  | missingDependency (id : ComputationId)
  | invalidDependencyData (dependency : ComputationId) (reason : String)
  | typeMismatch (id : ComputationId)
  | duplicateComputationId (id : ComputationId)
  | timeout (elapsedMs : Nat)
  | noValidResult (reason : String)
  | simulationFailed (message : String)
  | internal (message : String)
  | invalidConfiguration (message : String)
  deriving DecidableEq, Repr

/-- One step of a round: a computation runs, its output is stored, an event is broadcast. -/
inductive RoundStep (Output : Type)
  | ran (id : ComputationId)
  | persisted (id : ComputationId) (output : Output) (block : Nat)
  | announced (event : DerivedDataEvent)

/-- The steps done so far. -/
abbrev RoundLog (Output : Type) := List (RoundStep Output)

/-- What each computation comes to if it runs in a round. -/
abbrev Outcomes (Output : Type) :=
  ComputationId → Except ComputationError (ComputationOutput Output)

/-- The outputs stored with their blocks. -/
abbrev StoredOutputs (Output : Type) := Map ComputationId (Output × Nat)

/-- Where a round stands: the stored outputs, the computations that completed, and what was done so
far. -/
structure RoundProgress (Output : Type) where
  stored : StoredOutputs Output
  succeeded : List ComputationId
  log : RoundLog Output

namespace RoundProgress

/-- Whether what a computation requires is there: completed in this round, or for a stale
requirement stored at any time. -/
def holdsRequirements (progress : RoundProgress Output) (requirements : ComputationRequirements) :
    Bool :=
  (∀ id ∈ requirements.requireFresh, id ∈ progress.succeeded) ∧
    ∀ id ∈ requirements.allowStale,
      id ∈ progress.succeeded ∨ (progress.stored.lookup id).isSome = true

/-- Stores and reports what a computation that ran came to. -/
def finish (block : Nat) (outcomes : Outcomes Output) (progress : RoundProgress Output)
    (node : ComputationNode) : RoundProgress Output :=
  match outcomes node.1 with
  | .ok output =>
    { stored := progress.stored.insert node.1 (output.data, block)
      succeeded := progress.succeeded ++ [node.1]
      log := progress.log ++ [.persisted node.1 output.data block,
        .announced (.computationComplete node.1 block output.failedItems)] }
  | .error _ =>
    { progress with log := progress.log ++ [.announced (.computationFailed node.1 block)] }

/-- The report of a computation that does not run. -/
def skipped (block : Nat) (node : ComputationNode) : RoundStep Output :=
  .announced (.computationFailed node.1 block)

/-- Runs a stage. -/
def runStage (block : Nat) (outcomes : Outcomes Output) (progress : RoundProgress Output)
    (members : List ComputationNode) : RoundProgress Output :=
  let runnable := members.filter fun node => progress.holdsRequirements node.2
  let waiting := members.filter fun node => !progress.holdsRequirements node.2
  let started :=
    { progress with
      log := progress.log ++ waiting.map (skipped block) ++
        runnable.map fun node => .ran node.1 }
  runnable.foldl (finish block outcomes) started

end RoundProgress

/-- The registered computations at some indices. -/
def membersOf (nodes : List ComputationNode) (indices : List Nat) : List ComputationNode :=
  indices.filterMap fun index => nodes[index]?

/-- A round: the block of the market's last update, if it has one, and what the computations come
to. -/
structure Round (Output : Type) where
  lastUpdated : Option Nat
  outcomes : Outcomes Output

section

variable (nodes : List ComputationNode)

/-- The round for a block. -/
def runRound (block : Nat) (outcomes : Outcomes Output)
    (stored : StoredOutputs Output) : RoundProgress Output :=
  let schedule := buildSchedule nodes
  schedule.stages.foldl
    (fun progress stage => progress.runStage block outcomes (membersOf nodes stage))
    { stored := stored
      succeeded := []
      log := .announced (.newBlock block) ::
        (membersOf nodes schedule.unscheduled).map (RoundProgress.skipped block) }

/-- Runs all registered computations. Without a block nothing is done. -/
def computeAll (stored : StoredOutputs Output)
    (round : Round Output) : StoredOutputs Output × RoundLog Output :=
  round.lastUpdated.elim (stored, []) fun block =>
    let progress := runRound nodes block round.outcomes stored
    (progress.stored, progress.log)

/-- One more round: what is stored after it, and what was done up to its end. -/
def computeRound (before : StoredOutputs Output × RoundLog Output)
    (round : Round Output) : StoredOutputs Output × RoundLog Output :=
  let done := computeAll nodes before.1 round
  (done.1, before.2 ++ done.2)

/-- What is stored after several rounds, and what was done in them. Nothing is stored at first. -/
def computeRounds (rounds : List (Round Output)) : StoredOutputs Output × RoundLog Output :=
  rounds.foldl (computeRound nodes) (∅, [])

end

/-- The computation a step reports. -/
def RoundStep.reports : RoundStep Output → Option ComputationId
  | .announced (.computationComplete id _ _) | .announced (.computationFailed id _) => some id
  | _ => none

/-- A computation was reported complete. -/
def Completed (log : RoundLog Output) (id : ComputationId) : Prop :=
  ∃ block failedItems, RoundStep.announced (.computationComplete id block failedItems) ∈ log

/-- An output of a computation was stored. -/
def Persisted (log : RoundLog Output) (id : ComputationId) : Prop :=
  ∃ output block, RoundStep.persisted id output block ∈ log

/-! ## What a round keeps -/

/-- What a step of a round for a block follows: the block is announced first, a computation runs
after what it requires has been reported and holds, its output is stored after it ran, and it is
reported complete after its output is stored. -/
def FollowsFrom (nodes : List ComputationNode) (block : Nat)
    (stored : StoredOutputs Output) (front : RoundLog Output) :
    RoundStep Output → Prop
  | .ran id => ∃ requirements, (id, requirements) ∈ nodes ∧
      (∀ other ∈ requirements.requireFresh, Completed front other) ∧
      (∀ other ∈ requirements.allowStale,
        Completed front other ∨ (stored.lookup other).isSome = true) ∧
      ∀ other ∈ requirements.all, other ∈ nodes.map Prod.fst →
        other ∈ front.filterMap RoundStep.reports
  | .persisted id _ at_ => at_ = block ∧ RoundStep.ran id ∈ front
  | .announced (.newBlock at_) => at_ = block ∧ front = []
  | .announced (.computationComplete id at_ _) => at_ = block ∧ Persisted front id
  | .announced (.computationFailed _ at_) => at_ = block

/-- Where a round stands after some computations. -/
structure RoundKeeps (nodes : List ComputationNode) (block : Nat) (stored : StoredOutputs Output)
    (done : List ComputationNode) (progress : RoundProgress Output) : Prop where
  opened : progress.log.head? = some (.announced (.newBlock block))
  succeeded : ∀ id ∈ progress.succeeded, Completed progress.log id
  kept : ∀ id, (progress.stored.lookup id).isSome = true →
    (stored.lookup id).isSome = true ∨ Completed progress.log id
  reports : (progress.log.filterMap RoundStep.reports).Perm (done.map Prod.fst)
  each : EachAfter (FollowsFrom nodes block stored) progress.log

section Keeping

variable {nodes done members : List ComputationNode} {block : Nat} {outcomes : Outcomes Output}
  {stored : StoredOutputs Output} {progress : RoundProgress Output}

private theorem Completed.append {first : RoundLog Output} {id : ComputationId}
    (completed : Completed first id) (second : RoundLog Output) :
    Completed (first ++ second) id := by
  obtain ⟨at_block, failedItems, member⟩ := completed
  exact ⟨at_block, failedItems, mem_append_left _ member⟩

section

variable (keeps : RoundKeeps nodes block stored done progress)
include keeps

private theorem RoundKeeps.opened_append (steps : RoundLog Output) :
    (progress.log ++ steps).head? = some (.announced (.newBlock block)) := by
  rw [head?_append, keeps.opened, Option.some_or]

private theorem RoundKeeps.perm {order : List ComputationNode} (same : done.Perm order) :
    RoundKeeps nodes block stored order progress :=
  { keeps with reports := keeps.reports.trans (same.map _) }

/-- Steps that store nothing are added. -/
theorem RoundKeeps.extend (steps : RoundLog Output) (more : List ComputationNode)
    (reported : steps.filterMap RoundStep.reports = more.map Prod.fst)
    (follow : ∀ front entry back, steps = front ++ entry :: back →
      FollowsFrom nodes block stored (progress.log ++ front) entry) :
    RoundKeeps nodes block stored (done ++ more)
      { progress with log := progress.log ++ steps } := by
  refine ⟨keeps.opened_append steps, fun id member => (keeps.succeeded id member).append _,
    fun id known => ?_, ?_, keeps.each.append follow⟩
  · exact (keeps.kept id known).imp_right fun completed => completed.append _
  · rw [filterMap_append, map_append, reported]
    exact keeps.reports.append (.refl _)

end

private theorem reports_skipped (waiting : List ComputationNode) :
    (waiting.map (@RoundProgress.skipped Output block)).filterMap RoundStep.reports =
      waiting.map Prod.fst := by
  rw [filterMap_map]
  exact congrFun filterMap_eq_map waiting

variable (keeps : RoundKeeps nodes block stored done progress)
include keeps

/-- The reports of computations that do not run. -/
theorem RoundKeeps.skip (waiting : List ComputationNode) :
    RoundKeeps nodes block stored (done ++ waiting)
      { progress with log := progress.log ++ waiting.map (RoundProgress.skipped block) } := by
  apply keeps.extend
  · exact reports_skipped waiting
  · intro front entry back split
    have member : entry ∈ waiting.map (RoundProgress.skipped block) := by simp [split]
    obtain ⟨node, _, rfl⟩ := mem_map.mp member
    rfl

/-- One more computation is stored and reported. -/
theorem RoundKeeps.finish {node : ComputationNode} (ran : .ran node.1 ∈ progress.log) :
    RoundKeeps nodes block stored (done ++ [node]) (progress.finish block outcomes node) ∧
      progress.log <+: (progress.finish block outcomes node).log := by
  unfold RoundProgress.finish
  cases outcome : outcomes node.1 with
  | error error => exact ⟨keeps.skip [node], prefix_append _ _⟩
  | ok output =>
    dsimp only
    refine ⟨?_, prefix_append _ _⟩
    have completes : Completed (progress.log ++ [.persisted node.1 output.data block,
        .announced (.computationComplete node.1 block output.failedItems)]) node.1 :=
      ⟨block, output.failedItems, by simp⟩
    refine ⟨keeps.opened_append _, fun id member => ?_, fun id known => ?_, ?_, ?_⟩
    · obtain earlier | now := mem_append.mp member
      · exact (keeps.succeeded id earlier).append _
      · obtain rfl := mem_singleton.mp now
        exact completes
    · dsimp only at known
      rw [lookup_insert_ite] at known
      split at known
      · rename_i same
        rw [same]
        exact .inr completes
      · exact (keeps.kept id known).imp_right fun completed => completed.append _
    · rw [filterMap_append, map_append]
      exact keeps.reports.append (.refl _)
    · have first := keeps.each.concat
        (show FollowsFrom nodes block stored progress.log
          (.persisted node.1 output.data block) from ⟨rfl, ran⟩)
      have second := first.concat
        (show FollowsFrom nodes block stored _
          (.announced (.computationComplete node.1 block output.failedItems)) from
            ⟨rfl, output.data, block, by simp⟩)
      rwa [append_assoc] at second

private theorem RoundKeeps.foldl_finish (runnable : List ComputationNode)
    (ran : ∀ node ∈ runnable, .ran node.1 ∈ progress.log) :
    RoundKeeps nodes block stored (done ++ runnable)
      (runnable.foldl (RoundProgress.finish block outcomes) progress) := by
  induction runnable generalizing done progress with
  | nil => rwa [append_nil]
  | cons node rest ih =>
    obtain ⟨next, longer⟩ := keeps.finish (ran node mem_cons_self)
    rw [foldl_cons, append_cons]
    apply ih next
    intro other listed
    exact longer.subset (ran other (mem_cons_of_mem node listed))

private theorem RoundKeeps.follows_ran {node : ComputationNode} (known : node ∈ nodes)
    (ordered : ∀ id ∈ node.2.all, id ∈ nodes.map Prod.fst → id ∈ done.map Prod.fst)
    (ready : progress.holdsRequirements node.2 = true) (front : RoundLog Output) :
    FollowsFrom nodes block stored (progress.log ++ front) (.ran node.1) := by
  obtain ⟨fresh, stale⟩ := of_decide_eq_true ready
  refine ⟨node.2, known, fun id required => ?_, fun id required => ?_, fun id required inside => ?_⟩
  · exact (keeps.succeeded id (fresh id required)).append front
  · obtain now | held := stale id required
    · exact .inl ((keeps.succeeded id now).append front)
    · exact (keeps.kept id held).symm.imp_left fun completed => completed.append front
  · rw [filterMap_append]
    exact mem_append_left _ (keeps.reports.mem_iff.mpr (ordered id required inside))

/-- A stage whose registered requirements are all reported. -/
theorem RoundKeeps.runStage (known : ∀ node ∈ members, node ∈ nodes)
    (ordered : ∀ node ∈ members, ∀ id ∈ node.2.all, id ∈ nodes.map Prod.fst →
      id ∈ done.map Prod.fst) :
    RoundKeeps nodes block stored (done ++ members)
      (progress.runStage block outcomes members) := by
  let ready (node : ComputationNode) : Bool := progress.holdsRequirements node.2
  let starts : RoundLog Output := (members.filter ready).map fun node => .ran node.1
  have waited := keeps.skip (members.filter fun node => !ready node)
  have started := waited.extend starts []
    (by rw [filterMap_map]; exact filterMap_eq_nil_iff.mpr fun _ _ => rfl) (by
      intro front entry back split
      have member : entry ∈ starts := by simp [split]
      obtain ⟨node, listed, rfl⟩ := mem_map.mp member
      obtain ⟨inside, holds⟩ := mem_filter.mp listed
      dsimp only
      rw [append_assoc]
      exact keeps.follows_ran (known node inside) (ordered node inside) holds _)
  rw [append_nil] at started
  apply (started.foldl_finish (members.filter ready) ?_).perm
  · rw [append_assoc]
    apply List.Perm.append_left
    exact perm_append_comm.trans (filter_append_perm ready members)
  · intro node listed
    exact mem_append_right _ (mem_map_of_mem listed)

end Keeping

/-! ## A whole round -/

section Whole

variable {nodes : List ComputationNode} {block : Nat} {outcomes : Outcomes Output}
  {stored : StoredOutputs Output}

private theorem membersOf_range (nodes : List ComputationNode) :
    membersOf nodes (List.range nodes.length) = nodes := by
  induction nodes using List.reverseRecOn with
  | nil => rfl
  | append_singleton nodes last ih =>
    unfold membersOf at ih ⊢
    rw [length_append, length_singleton, range_succ, filterMap_append]
    congr 1
    · refine Eq.trans (filterMap_congr fun index inside => ?_) ih
      rw [getElem?_append_left (mem_range.mp inside)]
    · simp

private theorem membersOf_schedule_perm (nodes : List ComputationNode) :
    (membersOf nodes (buildSchedule nodes).unscheduled ++
      (buildSchedule nodes).stages.flatMap (membersOf nodes)).Perm nodes := by
  have all := (buildSchedule_perm nodes).filterMap fun index => nodes[index]?
  rw [filterMap_append, filterMap_flatten] at all
  exact all.trans (.of_eq (membersOf_range nodes))

variable (distinct : (nodes.map Prod.fst).Nodup)
include distinct

/-- What the members of a stage require is in the stages before it, where it is registered. -/
theorem required_in_earlier_stage {front back : List (List Nat)} {stage : List Nat}
    (split : (buildSchedule nodes).stages = front ++ stage :: back) {node : ComputationNode}
    (member : node ∈ membersOf nodes stage) {id : ComputationId} (required : id ∈ node.2.all)
    (registered : id ∈ nodes.map Prod.fst) :
    id ∈ (front.flatMap (membersOf nodes)).map Prod.fst := by
  obtain ⟨index, inside, found⟩ := mem_filterMap.mp member
  obtain ⟨bound, rfl⟩ := List.getElem?_eq_some_iff.mp found
  obtain ⟨other, listed, rfl⟩ := mem_map.mp registered
  obtain ⟨position, here, rfl⟩ := getElem_of_mem listed
  have placed : stageAt (finalStages nodes) index = some front.length :=
    (mem_stage ⟨index, bound⟩ front.length).mp ⟨stage, by simp [split], inside⟩
  have requires : Requires nodes ⟨index, bound⟩ ⟨position, here⟩ := required
  obtain ⟨low, lower, less⟩ := (levels_finalStages distinct).below placed _ requires
  obtain ⟨members, earlier, there⟩ := (mem_stage ⟨position, here⟩ low).mpr lower
  rw [split, getElem?_append_left less] at earlier
  apply mem_map_of_mem
  apply mem_flatMap.mpr
  exact ⟨members, mem_of_getElem? earlier,
    mem_filterMap.mpr ⟨position, there, getElem?_eq_getElem here⟩⟩

/-- The stages of a round one after another. -/
theorem roundKeeps_foldl_stages {left : List ComputationNode} (back front : List (List Nat))
    (split : (buildSchedule nodes).stages = front ++ back) {progress : RoundProgress Output}
    (keeps : RoundKeeps nodes block stored (left ++ front.flatMap (membersOf nodes)) progress) :
    RoundKeeps nodes block stored
      (left ++ (buildSchedule nodes).stages.flatMap (membersOf nodes))
      (back.foldl
        (fun progress stage => progress.runStage block outcomes (membersOf nodes stage))
        progress) := by
  induction back generalizing front progress with
  | nil => rwa [split, append_nil]
  | cons stage back ih =>
    rw [foldl_cons]
    apply ih (front ++ [stage])
    · rw [split, append_assoc, singleton_append]
    · rw [flatMap_append, flatMap_singleton, ← append_assoc]
      apply keeps.runStage
      · intro node member
        obtain ⟨index, _, found⟩ := mem_filterMap.mp member
        exact mem_of_getElem? found
      · intro node member id required registered
        rw [map_append]
        exact mem_append_right _
          (required_in_earlier_stage distinct split member required registered)

/-- **A round keeps its order and reports every computation.** -/
theorem roundKeeps_runRound :
    RoundKeeps nodes block stored nodes (runRound nodes block outcomes stored) := by
  have opened : RoundKeeps nodes block stored []
      (RoundProgress.mk stored [] [.announced (.newBlock block)]) := by
    refine ⟨rfl, fun _ member => absurd member not_mem_nil, fun _ held => .inl held, .refl _, ?_⟩
    exact EachAfter.nil.concat ⟨rfl, rfl⟩
  have left := opened.skip (membersOf nodes (buildSchedule nodes).unscheduled)
  apply RoundKeeps.perm _ (membersOf_schedule_perm nodes)
  apply roundKeeps_foldl_stages distinct _ [] rfl
  rwa [flatMap_nil, append_nil]

end Whole

/-! ## All rounds -/

/-- The stages are the lengths of the longest chains of registered requirements; the computations
left out are those that reach a requirement cycle. -/
structure ScheduledByChains (nodes : List ComputationNode) : Prop where
  stage : ∀ (index : Fin nodes.length) (stage : Nat),
    (∃ members, (buildSchedule nodes).stages[stage]? = some members ∧ index.1 ∈ members) ↔
      IsLongestChain (Requires nodes) index stage
  unscheduled : ∀ index : Fin nodes.length,
    index.1 ∈ (buildSchedule nodes).unscheduled ↔ ReachesCycle (Requires nodes) index

/-- The order of a round for a block after earlier rounds: the block is announced first and every
computation is reported once; a computation runs after its fresh requirements completed in the
round and its stale ones completed in this round or before; and what it requires is stored before
it runs, if it completes in the round at all. -/
structure RoundOrder (nodes : List ComputationNode) (block : Nat)
    (earlier log : RoundLog Output) : Prop where
  opens : log.head? = some (.announced (.newBlock block))
  once : (log.filterMap RoundStep.reports).Perm (nodes.map Prod.fst)
  ready : ∀ front id back, log = front ++ .ran id :: back → ∃ requirements,
    (id, requirements) ∈ nodes ∧ (∀ other ∈ requirements.requireFresh, Completed front other) ∧
      ∀ other ∈ requirements.allowStale, Completed front other ∨ Completed earlier other
  stored : ∀ front id back, log = front ++ .ran id :: back → ∀ requirements,
    (id, requirements) ∈ nodes → ∀ other ∈ requirements.all, Completed log other →
      Persisted front other

section Rounds

variable {nodes : List ComputationNode} (distinct : (nodes.map Prod.fst).Nodup)

include distinct

private theorem scheduledByChains : ScheduledByChains nodes := by
  constructor
  · intro index stage
    rw [mem_stage]
    exact (levels_finalStages distinct).eq_some_iff index stage
  · intro index
    rw [mem_unscheduled]
    exact (levels_finalStages distinct).eq_none_iff index

private theorem completed_of_stored (rounds : List (Round Output)) {id : ComputationId}
    (held : ((computeRounds nodes rounds).1.lookup id).isSome = true) :
    Completed (computeRounds nodes rounds).2 id := by
  induction rounds using List.reverseRecOn with
  | nil => simp [computeRounds] at held
  | append_singleton earlier round ih =>
    rw [computeRounds, foldl_concat, ← computeRounds] at held ⊢
    unfold computeRound computeAll at held ⊢
    cases named : round.lastUpdated with
    | none =>
      rw [named] at held
      exact (ih held).append _
    | some block =>
      rw [named] at held
      obtain before | now := (roundKeeps_runRound distinct).kept id held
      · exact (ih before).append _
      · obtain ⟨number, failedItems, member⟩ := now
        exact ⟨number, failedItems, mem_append_right _ member⟩

variable {block : Nat} {stored : StoredOutputs Output} {progress : RoundProgress Output}

section

variable {front back : RoundLog Output}
  (keeps : RoundKeeps nodes block stored nodes progress) (split : progress.log = front ++ back)
include keeps split

private theorem RoundKeeps.completed_front {id : ComputationId}
    (reported : id ∈ front.filterMap RoundStep.reports) (completed : Completed progress.log id) :
    Completed front id := by
  obtain ⟨number, failedItems, member⟩ := completed
  rw [split] at member
  obtain before | after := mem_append.mp member
  · exact ⟨number, failedItems, before⟩
  · have once := keeps.reports.nodup_iff.mpr distinct
    rw [split, filterMap_append] at once
    have again : id ∈ back.filterMap RoundStep.reports := mem_filterMap.mpr ⟨_, after, rfl⟩
    exact absurd again (disjoint_of_nodup_append once reported)

omit distinct in
private theorem RoundKeeps.persisted_of_completed {id : ComputationId}
    (completed : Completed front id) : Persisted front id := by
  obtain ⟨number, failedItems, member⟩ := completed
  obtain ⟨before, after, rfl⟩ := mem_iff_append.mp member
  rw [append_assoc, cons_append] at split
  obtain ⟨_, output, at_block, held⟩ := keeps.each _ _ _ split
  exact ⟨output, at_block, mem_append_left _ held⟩

end

private theorem RoundKeeps.roundOrder (keeps : RoundKeeps nodes block stored nodes progress)
    {earlier : RoundLog Output}
    (before : ∀ id, (stored.lookup id).isSome = true → Completed earlier id) :
    RoundOrder nodes block earlier progress.log := by
  refine ⟨keeps.opened, keeps.reports, fun front id back split => ?_,
    fun front id back split requirements registered other required completed => ?_⟩
  · obtain ⟨requirements, registered, fresh, stale, _⟩ := keeps.each front _ back split
    exact ⟨requirements, registered, fresh, fun other required =>
      (stale other required).imp_right (before other)⟩
  · obtain ⟨others, same, _, _, reported⟩ := keeps.each front _ back split
    obtain rfl : requirements = others := by
      have both := inj_on_of_nodup_map distinct registered same rfl
      exact (Prod.mk.inj both).2
    have inside : other ∈ nodes.map Prod.fst := by
      obtain ⟨number, failedItems, member⟩ := completed
      exact keeps.reports.mem_iff.mp (mem_filterMap.mpr ⟨_, member, rfl⟩)
    have done := keeps.completed_front distinct split (reported other required inside) completed
    exact keeps.persisted_of_completed split done

/-- **Computation rounds are well ordered.** For computations with distinct ids, the schedule
follows the chains of requirements, and every round that has a block keeps the order, whatever
the computations come to in this round and in those before it. -/
theorem rounds_well_ordered :
    ScheduledByChains nodes ∧ ∀ (earlier : List (Round Output)) (round : Round Output)
      (block : Nat), round.lastUpdated = some block →
        RoundOrder nodes block (computeRounds nodes earlier).2
          (computeAll nodes (computeRounds nodes earlier).1 round).2 := by
  refine ⟨scheduledByChains distinct, fun earlier round block named => ?_⟩
  unfold computeAll
  rw [named]
  apply (roundKeeps_runRound distinct).roundOrder distinct
  intro id held
  exact completed_of_stored distinct earlier held

end Rounds

/-- Depths need the spot prices of the block, prices need depths of any block, and two computations
need each other. -/
def registeredComputations : List ComputationNode :=
  [("pool_depths", ⟨{"spot_prices"}, ∅⟩), ("spot_prices", ⟨∅, ∅⟩),
    ("token_prices", ⟨∅, {"pool_depths"}⟩), ("first", ⟨{"second"}, ∅⟩),
    ("second", ⟨∅, {"first"}⟩)]

/-- A round for a block in which the depths fail. -/
def roundWithoutDepths (block : Nat) : Round Nat where
  lastUpdated := some block
  outcomes := fun id =>
    if id = "pool_depths" then .error (.internal "no depth") else .ok ⟨block, []⟩

/-- The second of two rounds, where no depths can be computed. -/
theorem registered_rounds_well_ordered :
    (buildSchedule registeredComputations = ⟨[[1], [0], [2]], [3, 4]⟩) ∧
      RoundOrder registeredComputations 8
        (computeRounds registeredComputations [roundWithoutDepths 7]).2
        (computeAll registeredComputations
          (computeRounds registeredComputations [roundWithoutDepths 7]).1
          (roundWithoutDepths 8)).2 :=
  ⟨by decide +kernel, (rounds_well_ordered (by decide)).2 _ _ 8 rfl⟩

end Fynd
