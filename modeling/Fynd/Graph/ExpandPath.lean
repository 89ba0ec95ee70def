import Fynd.Foundation.Odometer
import Fynd.Graph.PathSearchExact

/-!
# Writing out the routes of a token path

A token path stands for one route per choice of a pool on each leg. The routes are counted
through in order, up to a cap. The number of choices is computed in a machine word: where it
does not fit, too few routes are counted, or none.
-/

namespace Fynd

open Foundation List

variable {D : Type}

/-- A route: its tokens, and the pool of each hop. -/
structure Path (D : Type) where
  tokens : List Address
  edgeData : List (EdgeData D)

/-- Appends a hop. The first one brings its own token. -/
def Path.addHop (path : Path D) (source : Address) (pool : EdgeData D) (target : Address) :
    Path D where
  tokens := (if path.tokens.isEmpty then [source] else path.tokens) ++ [target]
  edgeData := path.edgeData ++ [pool]

namespace TopologyGraph

section

variable [NativeWrap] (graph : TopologyGraph D) (tokenPath : TokenPath) (maxPaths : Option Nat)
  (constraints : ResolvedRouteConstraints)

/-- The pools of a pair that the request does not exclude. -/
def legBetween (source target : NodeIndex) : List (EdgeData D) :=
  let pools := graph.poolsBetween source target
  if constraints.isEmpty || !pools.any fun pool => constraints.excludesPool pool.componentId then
    pools
  else pools.filter fun pool => !constraints.excludesPool pool.componentId

/-- Adds the hop of one leg. None where the picked pool does not exist. -/
def addLeg (path : Path D) (leg : List (EdgeData D) × (NodeIndex × NodeIndex) × Nat) :
    Option (Path D) :=
  leg.1[leg.2.2]?.map fun pool =>
    path.addHop (tokenOf graph.graph leg.2.1.1) pool (tokenOf graph.graph leg.2.1.2)

/-- Writes one route per choice of pools, up to the cap. None where the code panics. -/
def expandPath : Option (List (Path D)) :=
  let pairs := tokenPath.zip tokenPath.tail
  let legs := pairs.map fun pair => graph.legBetween constraints pair.1 pair.2
  if legs.isEmpty || legs.any List.isEmpty then some []
  else
    let combinations := (legs.map List.length).prod % 2 ^ 64
    let wanted := maxPaths.elim combinations fun cap => min cap combinations
    writeOut (fun chosen => (legs.zip (pairs.zip chosen)).foldlM graph.addLeg ⟨[], []⟩) legs wanted
      (List.replicate legs.length 0)

/-- The allowed pools of each leg. -/
def allowedPools : List (List (EdgeData D)) :=
  (tokenPath.zip tokenPath.tail).map fun pair => (graph.poolsBetween pair.1 pair.2).filter
    fun pool => !constraints.excludesPool pool.componentId

/-- The routes over the tokens of a path, one per choice of allowed pools in lexicographic order.
There are none without a leg. -/
def allPaths : List (Path D) :=
  if tokenPath.tail = [] then []
  else (choices (graph.allowedPools tokenPath constraints)).map
    (⟨tokenPath.map (tokenOf graph.graph), ·⟩)

/-- The routes that are written are the first of all routes, up to the cap. -/
def ExpandsInOrder : Prop :=
  graph.expandPath tokenPath maxPaths constraints =
    some (maxPaths.elim (graph.allPaths tokenPath constraints)
      fun cap => (graph.allPaths tokenPath constraints).take cap)

/-- The number of choices fits a machine word, or the cap does not exceed what is left of it. -/
def CountFits : Prop :=
  let product := ((graph.allowedPools tokenPath constraints).map List.length).prod
  product < 2 ^ 64 ∨ ∃ cap, maxPaths = some cap ∧ cap ≤ product % 2 ^ 64

private theorem legBetween_eq (source target : NodeIndex) :
    graph.legBetween constraints source target =
    (graph.poolsBetween source target).filter
      fun pool => !constraints.excludesPool pool.componentId := by
  unfold legBetween
  dsimp only
  split
  · rename_i all
    refine (filter_eq_self.mpr fun pool member => ?_).symm
    rw [Bool.or_eq_true, Bool.not_eq_true', any_eq_false] at all
    obtain none | clear := all
    · rw [excludesPool_of_isEmpty none, Bool.not_false]
    · simpa using clear pool member
  · rfl

variable {graph} {constraints}

omit [NativeWrap] in
/-- Hops bring the tokens they lead to, and the first one its own. -/
theorem foldlM_addLeg {first second : NodeIndex} {rest : TokenPath}
    {legs : List (List (EdgeData D))} {chosen : List Nat} (placed : Inside legs chosen)
    (same : legs.length = rest.length + 1) (path : Path D) :
    (legs.zip (((first :: second :: rest).zip (second :: rest)).zip chosen)).foldlM graph.addLeg
        path = (chosenAt legs chosen).map fun pools =>
      ⟨(if path.tokens.isEmpty then [tokenOf graph.graph first] else path.tokens) ++
        (second :: rest).map (tokenOf graph.graph), path.edgeData ++ pools⟩ := by
  induction rest generalizing first second legs chosen path with
  | nil =>
    cases placed with
    | nil => cases same
    | cons here placed =>
      obtain rfl := length_eq_zero_iff.mp (Nat.succ.inj same)
      cases placed
      simp [addLeg, Path.addHop, chosenAt, getElem?_eq_getElem here]
  | cons third rest ih =>
    cases placed with
    | nil => cases same
    | cons here placed =>
      simp only [zip_cons_cons, foldlM_cons, addLeg, chosenAt,
        getElem?_eq_getElem here, Option.map_some, Option.bind_eq_bind, Option.bind_some]
      rw [← zip_cons_cons, ih placed (Nat.succ.inj same)]
      simp [Path.addHop, Function.comp_def]

/-- What is written are the first routes, as many as the wrapped product and the cap allow. -/
theorem expandPath_eq : graph.expandPath tokenPath maxPaths constraints =
    some ((graph.allPaths tokenPath constraints).take (maxPaths.elim id min
      (((graph.allowedPools tokenPath constraints).map List.length).prod % 2 ^ 64))) := by
  have legs : (tokenPath.zip tokenPath.tail).map (fun pair =>
      graph.legBetween constraints pair.1 pair.2) = graph.allowedPools tokenPath constraints :=
    map_congr_left fun pair _ => graph.legBetween_eq constraints pair.1 pair.2
  simp only [expandPath, legs]
  match tokenPath with
  | [] | [_] => simp [allowedPools, allPaths]
  | first :: second :: rest =>
    have count : (graph.allowedPools (first :: second :: rest) constraints).length =
        rest.length + 1 := by simp [allowedPools]
    split
    · rename_i empty
      obtain none | ⟨leg, member, none⟩ := (Bool.or_eq_true _ _).mp empty |>.imp_right
        any_eq_true.mp
      · rw [isEmpty_iff_length_eq_zero, count] at none
        cases none
      · have zero := prod_eq_zero
          (mem_map (f := List.length) |>.mpr ⟨leg, member, by simpa using none⟩)
        rw [← length_choices, length_eq_zero_iff] at zero
        simp [allPaths, zero]
    · rename_i full
      simp only [Bool.or_eq_true, any_eq_true, not_or, not_exists, not_and] at full
      have placed := inside_zero fun leg member none => full.2 leg member (by simp [none])
      have start := choicesFrom_zero placed fun place member => eq_of_mem_replicate member
      refine (writeOut_eq (fun chosen placed => foldlM_addLeg placed count ⟨[], []⟩) placed
        ?_).trans ?_
      · rw [start, length_choices]
        cases maxPaths with
        | none => exact Nat.mod_le _ _
        | some cap => exact (Nat.min_le_right _ _).trans (Nat.mod_le _ _)
      · rw [start, map_take, allPaths, tail_cons, if_neg (cons_ne_nil _ _)]
        cases maxPaths <;> rfl

variable {tokenPath} in
private theorem length_allPaths (legs : tokenPath.tail ≠ []) :
    (graph.allPaths tokenPath constraints).length =
      ((graph.allowedPools tokenPath constraints).map List.length).prod := by
  rw [allPaths, if_neg legs, length_map, length_choices]

/-- **The product is written out in order exactly if its size fits.** -/
theorem expandsInOrder_iff_countFits (graph : TopologyGraph D) (tokenPath : TokenPath)
    (maxPaths : Option Nat) (constraints : ResolvedRouteConstraints) :
    graph.ExpandsInOrder tokenPath maxPaths constraints ↔
      graph.CountFits tokenPath maxPaths constraints := by
  rw [ExpandsInOrder, CountFits, expandPath_eq, Option.some.injEq]
  by_cases legless : tokenPath.tail = []
  · have none : graph.allowedPools tokenPath constraints = [] := by simp [allowedPools, legless]
    refine iff_of_true ?_ (.inl (by simp [none]))
    cases maxPaths <;> simp [allPaths, legless]
  · rw [← length_allPaths legless]
    cases maxPaths with
    | none =>
      simp only [Option.elim_none, id, take_eq_self_iff, reduceCtorEq, false_and,
        exists_false, or_false]
      omega
    | some cap =>
      simp only [Option.elim_some, take_eq_take_iff, Option.some.injEq, exists_eq_left']
      omega

end

attribute [local instance] sampleWrap

/-- Two pools that trade the same two tokens. -/
def twoPools : TopologyGraph Unit := sampleGraph [("a", [(0, 1), (1, 0)]), ("b", [(0, 1), (1, 0)])]

/-- Sixty-four legs over two pools each have as many routes as a word has values. None is
written. -/
theorem sixty_four_legs_written_as_none :
    ¬twoPools.ExpandsInOrder ((List.range 65).map (· % 2)) (some 1) ⟨∅, ∅, ∅, ∅⟩ := by
  have product : ((twoPools.allowedPools ((List.range 65).map (· % 2)) ⟨∅, ∅, ∅, ∅⟩).map
      List.length).prod = 2 ^ 64 := by decide +kernel
  intro expands
  rw [ExpandsInOrder, expandPath_eq, product, Option.some.injEq] at expands
  have lengths := congrArg List.length expands
  rw [Option.elim_some, Option.elim_some, length_take, length_take,
    length_allPaths (by decide), product] at lengths
  cases lengths

end TopologyGraph

end Fynd
