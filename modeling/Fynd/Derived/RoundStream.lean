import Fynd.Derived.Reports

/-!
# The stream of a manager's rounds

What the manager stores and announces over several rounds, seen by a reader of the stream: the
events since the last announced block are those of the round underway. They name that block,
each output is stored before its computation is reported, and at the end of a round every
registered computation is reported.
-/

namespace Fynd

open Foundation List

variable {Output : Type}

/-! ## Outputs are reported as they are stored -/

/-- Every stored output is reported at once. -/
inductive Prompt : RoundLog Output → Prop
  | nil : Prompt []
  | ran {id : ComputationId} {rest : RoundLog Output} :
      Prompt rest → Prompt (.ran id :: rest)
  | announced {event : DerivedDataEvent} {rest : RoundLog Output} :
      Prompt rest → Prompt (.announced event :: rest)
  | persisted {id : ComputationId} {output : Output} {block : Nat} {failedItems : List FailedItem}
      {rest : RoundLog Output} : Prompt rest →
        Prompt (.persisted id output block ::
          .announced (.computationComplete id block failedItems) :: rest)

namespace Prompt

private theorem append {first second : RoundLog Output} (left : Prompt first)
    (right : Prompt second) : Prompt (first ++ second) := by
  induction left with
  | nil => exact right
  | ran _ ih => exact .ran ih
  | announced _ ih => exact .announced ih
  | persisted _ ih => exact .persisted ih

private theorem skipped (block : Nat) (waiting : List ComputationNode) :
    Prompt (waiting.map (@RoundProgress.skipped Output block)) := by
  induction waiting with
  | nil => exact .nil
  | cons node rest ih => exact .announced ih

private theorem started (runnable : List ComputationNode) :
    Prompt (runnable.map fun node => (.ran node.1 : RoundStep Output)) := by
  induction runnable with
  | nil => exact .nil
  | cons node rest ih => exact .ran ih

section

variable {progress : RoundProgress Output} (prompt : Prompt progress.log) (block : Nat)
  (outcomes : Outcomes Output)
include prompt block outcomes

private theorem finish (node : ComputationNode) :
    Prompt (progress.finish block outcomes node).log := by
  unfold RoundProgress.finish
  cases outcomes node.1 with
  | error error => exact prompt.append (.announced .nil)
  | ok output => exact prompt.append (.persisted .nil)

private theorem runStage (members : List ComputationNode) :
    Prompt (progress.runStage block outcomes members).log := by
  unfold RoundProgress.runStage
  refine List.foldlRecOn (motive := fun progress : RoundProgress Output => Prompt progress.log)
    _ _ ?_ ?_
  · exact (prompt.append (skipped block _)).append (started _)
  · exact fun progress done node _ => done.finish block outcomes node

end

private theorem runRound (nodes : List ComputationNode) (block : Nat) (outcomes : Outcomes Output)
    (stored : StoredOutputs Output) : Prompt (runRound nodes block outcomes stored).log := by
  unfold Fynd.runRound
  refine List.foldlRecOn (motive := fun progress : RoundProgress Output => Prompt progress.log)
    _ _ ?_ ?_
  · exact .announced (skipped block _)
  · exact fun progress done stage _ => done.runStage block outcomes _

private theorem reported_after {log front back : RoundLog Output} (prompt : Prompt log)
    {id : ComputationId} {output : Output} {block : Nat}
    (split : log = front ++ .persisted id output block :: back) :
    id ∈ back.filterMap RoundStep.reports := by
  induction prompt generalizing front with
  | nil => simp at split
  | ran _ ih | announced _ ih =>
    cases front with
    | nil => simp at split
    | cons head tail => exact ih (List.cons.inj split).2
  | @persisted stored _ _ failedItems rest _ ih =>
    cases front with
    | nil =>
      obtain ⟨same, rfl⟩ := List.cons.inj split
      cases same
      simp [RoundStep.reports]
    | cons head tail =>
      obtain ⟨_, later⟩ := List.cons.inj split
      cases tail with
      | nil => simp at later
      | cons next tail => exact ih (List.cons.inj later).2

end Prompt

/-! ## The round underway -/

/-- The computation an event reports. -/
def DerivedDataEvent.reported : DerivedDataEvent → Option ComputationId
  | .newBlock _ => none
  | .computationComplete id _ _ => some id
  | .computationFailed id _ => some id

private theorem RoundStep.reports_eq (step : RoundStep Output) :
    step.reports = step.event.bind DerivedDataEvent.reported := by
  cases step with
  | announced event => cases event <;> rfl
  | ran | persisted => rfl

/-- The events of the round underway after one more step. -/
def noteStep (current : List DerivedDataEvent) : RoundStep Output → List DerivedDataEvent
  | .announced (.newBlock block) => [.newBlock block]
  | .announced event => current ++ [event]
  | .ran _ => current
  | .persisted _ _ _ => current

/-- The events since the last announced block, with it. -/
def currentRound (log : RoundLog Output) : List DerivedDataEvent :=
  log.foldl noteStep []

theorem currentRound_concat (log : RoundLog Output) (step : RoundStep Output) :
    currentRound (log ++ [step]) = noteStep (currentRound log) step := by
  rw [currentRound, foldl_concat, ← currentRound]

/-- A step that announces no block. -/
def RoundStep.Plain (step : RoundStep Output) : Prop :=
  ∀ block, step ≠ .announced (.newBlock block)

theorem noteStep_of_plain {step : RoundStep Output} (plain : step.Plain)
    (current : List DerivedDataEvent) : noteStep current step = current ++ step.event.toList := by
  cases step with
  | announced event =>
    cases event with
    | newBlock block => exact absurd rfl (plain block)
    | computationComplete | computationFailed => rfl
  | ran | persisted => simp [noteStep, RoundStep.event]

private theorem currentRound_of_opened (earlier rest : RoundLog Output) (block : Nat)
    (plain : ∀ step ∈ rest, step.Plain) :
    currentRound (earlier ++ .announced (.newBlock block) :: rest) =
      .newBlock block :: rest.filterMap RoundStep.event := by
  induction rest using List.reverseRecOn with
  | nil =>
    rw [currentRound_concat]
    rfl
  | append_singleton rest step ih =>
    rw [← cons_append, ← append_assoc, currentRound_concat,
      ih fun other member => plain other (mem_append_left _ member),
      noteStep_of_plain (plain step (by simp)), filterMap_append, cons_append]
    cases found : step.event <;> simp [found]

/-- What a step of the stream has to do with the round underway: an output is stored in a round, and
before its computation is reported; a report names the round's block and is not the report of more
computations than are registered. -/
def RoundWise (nodes : List ComputationNode) (front : RoundLog Output) :
    RoundStep Output → Prop
  | .persisted id _ _ => currentRound front ≠ [] ∧
      id ∉ (currentRound front).filterMap DerivedDataEvent.reported
  | .announced (.computationComplete _ block _) =>
    (currentRound front).head? = some (.newBlock block) ∧
      (currentRound front).length ≤ nodes.length
  | .announced (.computationFailed _ block) =>
    (currentRound front).head? = some (.newBlock block) ∧
      (currentRound front).length ≤ nodes.length
  | .announced (.newBlock _) => True
  | .ran _ => True

/-- A stream of whole rounds. -/
structure WholeRounds (nodes : List ComputationNode) (log : RoundLog Output) : Prop where
  each : EachAfter (RoundWise nodes) log
  reported : currentRound log ≠ [] → ∀ id ∈ nodes.map Prod.fst,
    id ∈ (currentRound log).filterMap DerivedDataEvent.reported

section Rounds

variable {nodes : List ComputationNode} {block : Nat} {outcomes : Outcomes Output}
  {stored : StoredOutputs Output}

private theorem runRound_opened (distinct : (nodes.map Prod.fst).Nodup) (block : Nat)
    (outcomes : Outcomes Output) (stored : StoredOutputs Output) :
    ∃ rest, (runRound nodes block outcomes stored).log = .announced (.newBlock block) :: rest ∧
      ∀ step ∈ rest, step.Plain := by
  have keeps : RoundKeeps nodes block stored nodes (runRound nodes block outcomes stored) :=
    roundKeeps_runRound distinct
  obtain ⟨rest, split⟩ := head?_eq_some_iff.mp keeps.opened
  refine ⟨rest, split, fun step member other same => ?_⟩
  subst same
  obtain ⟨before, after, rfl⟩ := mem_iff_append.mp member
  have follows := keeps.each (.announced (.newBlock block) :: before) _ after split
  exact absurd follows.2 (cons_ne_nil _ _)

private theorem filterMap_event_reported (steps : RoundLog Output) :
    (steps.filterMap RoundStep.event).filterMap DerivedDataEvent.reported =
      steps.filterMap RoundStep.reports := by
  rw [filterMap_filterMap]
  exact filterMap_congr fun step _ => (RoundStep.reports_eq step).symm

private theorem length_filterMap_event {steps : RoundLog Output}
    (plain : ∀ step ∈ steps, step.Plain) :
    (steps.filterMap RoundStep.event).length = (steps.filterMap RoundStep.reports).length := by
  induction steps with
  | nil => rfl
  | cons step rest ih =>
    have later := ih fun other member => plain other (mem_cons_of_mem _ member)
    cases step with
    | ran | persisted => exact later
    | announced event =>
      cases event with
      | newBlock block => exact absurd rfl (plain _ mem_cons_self block)
      | computationComplete | computationFailed => exact congrArg (· + 1) later

private theorem roundWise_runRound (distinct : (nodes.map Prod.fst).Nodup)
    (earlier : RoundLog Output) {front back : RoundLog Output} {step : RoundStep Output}
    (split : (runRound nodes block outcomes stored).log = front ++ step :: back) :
    RoundWise nodes (earlier ++ front) step := by
  have keeps : RoundKeeps nodes block stored nodes (runRound nodes block outcomes stored) :=
    roundKeeps_runRound distinct
  obtain ⟨rest, opened, plain⟩ := runRound_opened distinct block outcomes stored
  cases front with
  | nil =>
    rw [opened, nil_append] at split
    obtain ⟨rfl, _⟩ := List.cons.inj split
    trivial
  | cons head front =>
    rw [opened, cons_append] at split
    obtain ⟨rfl, later⟩ := List.cons.inj split
    have current := currentRound_of_opened earlier front block fun other member =>
      plain other (by rw [later]; exact mem_append_left _ member)
    have whole : (runRound nodes block outcomes stored).log =
        (.announced (.newBlock block) :: front) ++ step :: back := opened.trans (congrArg _ later)
    have follows := keeps.each _ step back whole
    have bound (id : ComputationId) (reports : step.reports = some id) :
        (currentRound (earlier ++ .announced (.newBlock block) :: front)).length ≤
          nodes.length := by
      have all := keeps.reports.length_eq
      rw [opened, filterMap_cons_none rfl, later, filterMap_append, filterMap_cons_some reports,
        length_append, length_cons, length_map] at all
      rw [current, length_cons, length_filterMap_event fun other member =>
        plain other (by rw [later]; exact mem_append_left _ member)]
      omega
    cases step with
    | ran id => trivial
    | persisted id output at_block =>
      refine ⟨by rw [current]; exact cons_ne_nil _ _, ?_⟩
      rw [current, filterMap_cons_none rfl, filterMap_event_reported]
      have once := keeps.reports.nodup_iff.mpr distinct
      rw [opened, filterMap_cons_none rfl, later, filterMap_append] at once
      have after := (Prompt.runRound nodes block outcomes stored).reported_after whole
      intro before
      exact disjoint_of_nodup_append once before (by rwa [filterMap_cons_none rfl])
    | announced event =>
      cases event with
      | newBlock number => trivial
      | computationComplete id number failedItems =>
        have same : number = block := follows.1
        refine ⟨?_, bound id rfl⟩
        rw [current, head?_cons, same]
      | computationFailed id number =>
        have same : number = block := follows
        refine ⟨?_, bound id rfl⟩
        rw [current, head?_cons, same]

/-- **The manager's stream is one of whole rounds.** -/
theorem wholeRounds_computeRounds (distinct : (nodes.map Prod.fst).Nodup)
    (rounds : List (Round Output)) : WholeRounds nodes (computeRounds nodes rounds).2 := by
  induction rounds using List.reverseRecOn with
  | nil => exact ⟨.nil, fun underway => absurd rfl underway⟩
  | append_singleton earlier round ih =>
    rw [computeRounds, foldl_concat, ← computeRounds]
    unfold computeRound computeAll
    cases named : round.lastUpdated with
    | none =>
      simp only [Option.elim_none, append_nil]
      exact ih
    | some block =>
      dsimp only [Option.elim_some]
      refine ⟨ih.each.append fun front step back => roundWise_runRound distinct _,
        fun _ id registered => ?_⟩
      have keeps : RoundKeeps nodes block (computeRounds nodes earlier).1 nodes
          (runRound nodes block round.outcomes (computeRounds nodes earlier).1) :=
        roundKeeps_runRound distinct
      obtain ⟨rest, opened, plain⟩ :=
        runRound_opened distinct block round.outcomes (computeRounds nodes earlier).1
      have all := keeps.reports.mem_iff.mpr registered
      rw [opened, currentRound_of_opened _ _ _ plain, filterMap_cons_none rfl,
        filterMap_event_reported]
      rwa [opened, filterMap_cons_none rfl] at all

end Rounds

end Fynd
