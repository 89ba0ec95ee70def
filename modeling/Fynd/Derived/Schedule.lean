import Fynd.Derived.Tracker
import Fynd.Foundation.LongestChain
import Mathlib.Data.Finset.Lattice.Fold
import Mathlib.Order.Lattice.Nat

/-!
# The order of the computations

The registered computations are placed in stages. A pass over them places each one whose
registered requirements are placed already, one stage above the highest of them, and passes
repeat until one places nothing. What is left over waits for a requirement cycle.
-/

namespace Fynd

open Foundation List

/-- A registered computation: its id and what it requires. -/
abbrev ComputationNode := ComputationId × ComputationRequirements

/-- What a computation requires, fresh or stale. -/
def ComputationRequirements.all (requirements : ComputationRequirements) : Finset ComputationId :=
  requirements.requireFresh ∪ requirements.allowStale

/-- The plan of a round, in indices of the registered computations. -/
structure ComputationSchedule where
  stages : List (List Nat)
  unscheduled : List Nat
  deriving DecidableEq, Repr

section Passes

/-- The stage of an index, if it has one. -/
def stageAt (stageOf : List (Option Nat)) (index : Nat) : Option Nat := stageOf[index]?.join

section

variable (nodes : List ComputationNode)

/-- The stage of a registered computation, one that is not registered apart. -/
def stageOfId (stageOf : List (Option Nat)) (id : ComputationId) : Option (Option Nat) :=
  ((nodes.map Prod.fst).idxOf? id).map (stageAt stageOf)

/-- One above the highest stage of the registered requirements, if all of them have one. -/
def readyStage (stageOf : List (Option Nat))
    (requirements : ComputationRequirements) : Option Nat :=
  if ∃ id ∈ requirements.all, stageOfId nodes stageOf id = some none then none
  else some (requirements.all.sup fun id => (stageOfId nodes stageOf id).join.elim 0 (· + 1))

/-- Places one computation, if it is ready and not placed. -/
def placeComputation (state : List (Option Nat) × Bool) (index : Nat) : List (Option Nat) × Bool :=
  if (stageAt state.1 index).isSome then state
  else
    match nodes[index]?.bind fun node => readyStage nodes state.1 node.2 with
    | none => state
    | some stage => (state.1.set index (some stage), true)

/-- One pass over the computations. The flag says whether it placed any. -/
def schedulePass (stageOf : List (Option Nat)) : List (Option Nat) × Bool :=
  (List.range nodes.length).foldl (placeComputation nodes) (stageOf, false)

end

/-- Passes until one places nothing. -/
def schedulePasses (nodes : List ComputationNode) :
    Nat → List (Option Nat) → List (Option Nat)
  | 0, stageOf => stageOf
  | fuel + 1, stageOf =>
    let pass := schedulePass nodes stageOf
    if pass.2 then schedulePasses nodes fuel pass.1 else pass.1

/-- The stage of each computation. Every pass but the last places one, so that there are no more
passes than computations and one. -/
def finalStages (nodes : List ComputationNode) : List (Option Nat) :=
  schedulePasses nodes (nodes.length + 1) (List.replicate nodes.length none)

/-- The plan for the registered computations. -/
def buildSchedule (nodes : List ComputationNode) : ComputationSchedule :=
  let stageOf := finalStages nodes
  let stageCount := (stageOf.filterMap id).max?.elim 0 (· + 1)
  let indices := List.range nodes.length
  { stages := (List.range stageCount).map fun stage =>
      indices.filter fun index => stageAt stageOf index = some stage
    unscheduled := indices.filter fun index => stageAt stageOf index = none }

end Passes

/-- One registered computation requires another. -/
def Requires (nodes : List ComputationNode) (index other : Fin nodes.length) : Prop :=
  (nodes.get other).1 ∈ (nodes.get index).2.all

/-! ## What a pass keeps -/

section Placing

variable {nodes : List ComputationNode} {stageOf later : List (Option Nat)}

/-- More computations are placed, none elsewhere. -/
structure Extends (stageOf later : List (Option Nat)) : Prop where
  length : later.length = stageOf.length
  keeps : ∀ index stage, stageAt stageOf index = some stage → stageAt later index = some stage

variable {index : Nat}

private theorem stageAt_set (inside : index < stageOf.length) (stage other : Nat) :
    stageAt (stageOf.set index (some stage)) other =
      if other = index then some stage else stageAt stageOf other := by
  unfold stageAt
  rw [getElem?_set]
  by_cases same : index = other
  · subst same
    simp [inside]
  · simp [same, Ne.symm same]

private theorem Extends.set (inside : index < stageOf.length) (free : stageAt stageOf index = none)
    (stage : Nat) : Extends stageOf (stageOf.set index (some stage)) := by
  refine ⟨length_set, fun other found held => ?_⟩
  rw [stageAt_set inside, if_neg, held]
  intro same
  rw [same, free] at held
  cases held

private theorem readyStage_of_extends (more : Extends stageOf later)
    {requirements : ComputationRequirements} {stage : Nat}
    (ready : readyStage nodes stageOf requirements = some stage) :
    readyStage nodes later requirements = some stage := by
  unfold readyStage at ready ⊢
  split at ready
  · cases ready
  · rename_i placed
    have same : ∀ id ∈ requirements.all, stageOfId nodes later id = stageOfId nodes stageOf id := by
      intro id required
      unfold stageOfId at placed ⊢
      cases position : (nodes.map Prod.fst).idxOf? id with
      | none => rfl
      | some index =>
        cases held : stageAt stageOf index with
        | none => exact absurd ⟨id, required, by simp [position, held]⟩ placed
        | some found => simp [held, more.keeps index found held]
    rw [if_neg, ← ready, Finset.sup_congr rfl fun id required => by rw [same id required]]
    intro waits
    obtain ⟨id, required, free⟩ := waits
    exact placed ⟨id, required, (same id required).symm.trans free⟩

variable (nodes stageOf) in
/-- Every computation that is placed is one above its requirements. -/
def Placed : Prop :=
  stageOf.length = nodes.length ∧ ∀ index stage, stageAt stageOf index = some stage →
    ∃ node, nodes[index]? = some node ∧ readyStage nodes stageOf node.2 = some stage

variable (nodes) in
/-- What placing one computation does. -/
theorem placeComputation_cases (state : List (Option Nat) × Bool) (index : Nat) :
    (placeComputation nodes state index = state ∧ (stageAt state.1 index = none →
      nodes[index]?.bind (fun node => readyStage nodes state.1 node.2) = none)) ∨
    ∃ node stage, stageAt state.1 index = none ∧ nodes[index]? = some node ∧
      readyStage nodes state.1 node.2 = some stage ∧
      placeComputation nodes state index = (state.1.set index (some stage), true) := by
  unfold placeComputation
  split
  · rename_i placed
    refine .inl ⟨rfl, fun free => ?_⟩
    rw [free] at placed
    cases placed
  · rename_i free
    split
    · rename_i waits
      exact .inl ⟨rfl, fun _ => waits⟩
    · rename_i stage ready
      obtain ⟨node, found, ready⟩ := Option.bind_eq_some_iff.mp ready
      exact .inr ⟨node, stage, Option.not_isSome_iff_eq_none.mp free, found, ready, rfl⟩

private theorem Placed.set (placed : Placed nodes stageOf) {index : Nat} {node : ComputationNode}
    (found : nodes[index]? = some node) (free : stageAt stageOf index = none) {stage : Nat}
    (ready : readyStage nodes stageOf node.2 = some stage) :
    Placed nodes (stageOf.set index (some stage)) := by
  have inside : index < stageOf.length := by
    rw [placed.1]
    exact (List.getElem?_eq_some_iff.mp found).1
  have more := Extends.set inside free stage
  refine ⟨by rw [length_set, placed.1], fun other held at_other => ?_⟩
  rw [stageAt_set inside] at at_other
  split at at_other
  · rename_i same
    cases at_other
    subst same
    exact ⟨node, found, readyStage_of_extends more ready⟩
  · obtain ⟨holder, known, settled⟩ := placed.2 other held at_other
    exact ⟨holder, known, readyStage_of_extends more settled⟩

/-- How many computations have no stage. -/
def unplaced (stageOf : List (Option Nat)) : Nat := stageOf.countP Option.isNone

private theorem unplaced_set (inside : index < stageOf.length) (free : stageAt stageOf index = none)
    (stage : Nat) : unplaced (stageOf.set index (some stage)) + 1 = unplaced stageOf := by
  have none : stageOf[index] = none := by
    simpa [stageAt, getElem?_eq_getElem inside] using free
  unfold unplaced
  have held : 0 < stageOf.countP Option.isNone :=
    countP_pos_iff.mpr ⟨stageOf[index], getElem_mem inside, by simp [none]⟩
  rw [countP_set inside]
  simp only [none, Option.isNone_none, Option.isNone_some, if_true, Bool.false_eq_true, if_false]
  omega

/-- What part of a pass does: it keeps the stages right, and either it changes nothing and nothing
it looked at was ready, or there are fewer computations without a stage. -/
structure PassKeeps (nodes : List ComputationNode) (looked : List Nat)
    (before after : List (Option Nat) × Bool) : Prop where
  placed : Placed nodes after.1
  stuck : after.2 = false → before.2 = false ∧ after.1 = before.1 ∧ ∀ index ∈ looked,
    stageAt before.1 index = none →
      nodes[index]?.bind (fun node => readyStage nodes before.1 node.2) = none
  fewer : unplaced after.1 + (if after.2 ∧ ¬before.2 then 1 else 0) ≤ unplaced before.1

private theorem passKeeps_foldl (indices : List Nat) (state : List (Option Nat) × Bool)
    (placed : Placed nodes state.1) :
    PassKeeps nodes indices state (indices.foldl (placeComputation nodes) state) := by
  induction indices generalizing state with
  | nil => exact ⟨placed, fun none => ⟨none, rfl, by simp⟩, by simp⟩
  | cons index rest ih =>
    rw [foldl_cons]
    obtain ⟨same, waits⟩ | ⟨node, stage, free, found, ready, moved⟩ :=
      placeComputation_cases nodes state index
    · rw [same]
      have later := ih state placed
      refine ⟨later.placed, fun none => ?_, later.fewer⟩
      obtain ⟨flag, unchanged, all⟩ := later.stuck none
      exact ⟨flag, unchanged, forall_mem_cons.mpr ⟨waits, all⟩⟩
    · rw [moved]
      have inside : index < state.1.length := by
        rw [placed.1]
        exact (List.getElem?_eq_some_iff.mp found).1
      have later := ih (state.1.set index (some stage), true) (placed.set found free ready)
      have count := unplaced_set inside free stage
      refine ⟨later.placed, fun none => ?_, ?_⟩
      · cases (later.stuck none).1
      · have less := later.fewer
        dsimp only at less
        simp only [not_true_eq_false, and_false, if_false, Nat.add_zero] at less
        split <;> omega

variable (nodes stageOf) in
/-- A pass that places nothing finds nothing ready. -/
def Stuck : Prop :=
  ∀ index node, nodes[index]? = some node → stageAt stageOf index = none →
    readyStage nodes stageOf node.2 = none

private theorem schedulePasses_spec (fuel : Nat) (stageOf : List (Option Nat))
    (placed : Placed nodes stageOf) (enough : unplaced stageOf < fuel) :
    Placed nodes (schedulePasses nodes fuel stageOf) ∧
      Stuck nodes (schedulePasses nodes fuel stageOf) := by
  induction fuel generalizing stageOf with
  | zero => omega
  | succ fuel ih =>
    have keeps := passKeeps_foldl (List.range nodes.length) (stageOf, false) placed
    rw [schedulePasses]
    change PassKeeps nodes _ _ (schedulePass nodes stageOf) at keeps
    cases moved : (schedulePass nodes stageOf).2 with
    | true =>
      rw [if_pos rfl]
      apply ih _ keeps.placed
      have fewer := keeps.fewer
      simp only [moved, Bool.false_eq_true, not_false_eq_true, and_self, if_true] at fewer
      omega
    | false =>
      rw [if_neg (by simp)]
      refine ⟨keeps.placed, fun index node found free => ?_⟩
      obtain ⟨_, same, waits⟩ := keeps.stuck moved
      dsimp only at same waits
      rw [same] at free ⊢
      have inside := (List.getElem?_eq_some_iff.mp found).1
      have none := waits index (mem_range.mpr inside) free
      rwa [found, Option.bind_some] at none

private theorem finalStages_spec :
    Placed nodes (finalStages nodes) ∧ Stuck nodes (finalStages nodes) := by
  apply schedulePasses_spec
  · refine ⟨length_replicate, fun index stage found => ?_⟩
    simp [stageAt, getElem?_replicate, Option.join_eq_some_iff] at found
  · rw [unplaced, countP_replicate]
    simp

theorem mem_unscheduled (index : Fin nodes.length) :
    index.1 ∈ (buildSchedule nodes).unscheduled ↔
      stageAt (finalStages nodes) index = none := by
  rw [buildSchedule, mem_filter, mem_range, decide_eq_true_eq]
  exact and_iff_right index.2

theorem mem_stage (index : Fin nodes.length) (stage : Nat) :
    (∃ members, (buildSchedule nodes).stages[stage]? = some members ∧ index.1 ∈ members) ↔
      stageAt (finalStages nodes) index = some stage := by
  rw [buildSchedule]
  dsimp only
  rw [getElem?_map]
  constructor
  · intro held
    obtain ⟨members, found, inside⟩ := held
    obtain ⟨number, listed, rfl⟩ := Option.map_eq_some_iff.mp found
    obtain ⟨_, rfl⟩ := List.getElem?_eq_some_iff.mp listed
    rw [mem_filter, decide_eq_true_eq, getElem_range] at inside
    exact inside.2
  · intro known
    have counted : stage < ((finalStages nodes).filterMap id).max?.elim 0 (· + 1) := by
      have listed : stage ∈ (finalStages nodes).filterMap id :=
        mem_filterMap.mpr ⟨some stage,
          mem_of_getElem? (Option.join_eq_some_iff.mp known), rfl⟩
      cases highest : ((finalStages nodes).filterMap id).max? with
      | none =>
        rw [max?_eq_none_iff] at highest
        rw [highest] at listed
        cases listed
      | some most =>
        rw [Option.elim_some]
        have under := (max?_eq_some_iff.mp highest).2 stage listed
        omega
    refine ⟨_, by rw [getElem?_range counted, Option.map_some], ?_⟩
    rw [mem_filter, mem_range, decide_eq_true_eq]
    exact ⟨index.2, known⟩

private theorem mem_flatten_stages : index ∈ (buildSchedule nodes).stages.flatten ↔
      index < nodes.length ∧ stageAt (finalStages nodes) index ≠ none := by
  constructor
  · intro listed
    obtain ⟨members, found, inside⟩ := mem_flatten.mp listed
    obtain ⟨stage, _, rfl⟩ := mem_map.mp found
    rw [mem_filter, mem_range, decide_eq_true_eq] at inside
    refine ⟨inside.1, fun free => ?_⟩
    rw [inside.2] at free
    cases free
  · intro held
    obtain ⟨stage, known⟩ := Option.ne_none_iff_exists'.mp held.2
    obtain ⟨members, found, inside⟩ := (mem_stage ⟨index, held.1⟩ stage).mpr known
    exact mem_flatten.mpr ⟨members, mem_of_getElem? found, inside⟩

private theorem nodup_flatten_stages : (buildSchedule nodes).stages.flatten.Nodup := by
  rw [nodup_flatten]
  constructor
  · intro members found
    obtain ⟨stage, _, rfl⟩ := mem_map.mp found
    exact nodup_range.filter _
  · apply pairwise_map.mpr
    apply nodup_range.imp
    intro stage other different index here there
    rw [mem_filter, decide_eq_true_eq] at here there
    exact different (Option.some.inj (here.2.symm.trans there.2))

variable (nodes) in
/-- A schedule lists every computation once. -/
theorem buildSchedule_perm :
    ((buildSchedule nodes).unscheduled ++ (buildSchedule nodes).stages.flatten).Perm
      (List.range nodes.length) := by
  apply (perm_ext_iff_of_nodup _ nodup_range).mpr
  · intro index
    rw [mem_append, mem_flatten_stages, buildSchedule, mem_filter, mem_range, decide_eq_true_eq]
    tauto
  · apply List.Nodup.append (nodup_range.filter _) nodup_flatten_stages
    intro index free placed
    rw [mem_filter, decide_eq_true_eq] at free
    exact (mem_flatten_stages.mp placed).2 free.2

end Placing

/-! ## The stages are the lengths of the longest chains -/

section Distinct

variable {nodes : List ComputationNode}

private theorem exists_of_stageOfId {stageOf : List (Option Nat)} {id : ComputationId}
    {stage : Option Nat} (found : stageOfId nodes stageOf id = some stage) :
    ∃ index : Fin nodes.length, (nodes.get index).1 = id ∧ stageAt stageOf index = stage := by
  obtain ⟨position, known, held⟩ := Option.map_eq_some_iff.mp found
  obtain ⟨inside, same, _⟩ := idxOf?_eq_some_iff.mp known
  rw [length_map] at inside
  rw [getElem_map] at same
  exact ⟨⟨position, inside⟩, same, held⟩

variable (distinct : (nodes.map Prod.fst).Nodup)
include distinct

private theorem stageOfId_get (stageOf : List (Option Nat)) (index : Fin nodes.length) :
    stageOfId nodes stageOf (nodes.get index).1 = some (stageAt stageOf index) := by
  have inside : index.1 < (nodes.map Prod.fst).length := by simp
  have here : (nodes.map Prod.fst)[index.1] = (nodes.get index).1 := by simp
  have first : (nodes.map Prod.fst).idxOf? (nodes.get index).1 = some index.1 := by
    refine idxOf?_eq_some_iff.mpr ⟨inside, here, fun earlier before same => ?_⟩
    exact before.ne ((List.Nodup.getElem_inj_iff distinct).mp (same.trans here.symm))
  rw [stageOfId, first, Option.map_some]

/-- **The stages are levels of the requirements.** -/
theorem levels_finalStages :
    Levels (Requires nodes) fun index => stageAt (finalStages nodes) index := by
  obtain ⟨placed, stuck⟩ := @finalStages_spec nodes
  have ready (index : Fin nodes.length) {stage : Nat}
      (known : stageAt (finalStages nodes) index = some stage) :
      readyStage nodes (finalStages nodes) (nodes.get index).2 = some stage := by
    obtain ⟨node, found, settled⟩ := placed.2 index stage known
    rw [getElem?_eq_getElem index.2] at found
    cases found
    exact settled
  refine ⟨fun {index high} known other required => ?_, fun {index low} known => ?_,
    fun {index} unknown => ?_⟩
  · have settled := ready index known
    unfold readyStage at settled
    split at settled
    · cases settled
    · rename_i all
      cases held : stageAt (finalStages nodes) other with
      | none => exact absurd ⟨_, required, by rw [stageOfId_get distinct, held]⟩ all
      | some low =>
        have under := Finset.le_sup (f := fun id =>
          (stageOfId nodes (finalStages nodes) id).join.elim 0 (· + 1)) required
        rw [Option.some.inj settled, stageOfId_get distinct, held] at under
        exact ⟨low, rfl, under⟩
  · have settled := ready index known
    unfold readyStage at settled
    split at settled
    · cases settled
    · have highest := Option.some.inj settled
      have some_required : (nodes.get index).2.all.Nonempty := by
        rw [Finset.nonempty_iff_ne_empty]
        intro empty
        rw [empty, Finset.sup_empty] at highest
        cases highest
      obtain ⟨id, required, at_id⟩ := Finset.exists_mem_eq_sup _ some_required fun id =>
        (stageOfId nodes (finalStages nodes) id).join.elim 0 (· + 1)
      rw [highest] at at_id
      cases found : stageOfId nodes (finalStages nodes) id with
      | none => simp [found] at at_id
      | some stage =>
        cases stage with
        | none => simp [found] at at_id
        | some under =>
          simp only [found, Option.join_some, Option.elim_some, Nat.add_right_cancel_iff]
            at at_id
          obtain ⟨other, rfl, held⟩ := exists_of_stageOfId found
          exact ⟨other, required, by rw [held, at_id]⟩
  · have waits := stuck index (nodes.get index) (getElem?_eq_getElem index.2) unknown
    unfold readyStage at waits
    split at waits
    · rename_i free
      obtain ⟨id, required, found⟩ := free
      obtain ⟨other, rfl, held⟩ := exists_of_stageOfId found
      exact ⟨other, required, held⟩
    · cases waits

end Distinct

end Fynd
