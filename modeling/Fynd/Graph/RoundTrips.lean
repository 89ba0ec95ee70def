import Fynd.Graph.WalkLevels

/-!
# Round trips

The frontier of a round holds every open sequence of so many steps once. A sequence is
closed by a step back to the start, and it has at most one free step, so the rounds
reach every round trip within the bounds.
-/

namespace Fynd

open Foundation List

namespace TopologyGraph

variable {D : Type} {graph : TopologyGraph D} [NativeWrap] {search : RouteSearch}
  {target : NodeIndex}

variable {hops : Nat} {last : NodeIndex} {front : TokenPath} {first : TokenPath × Nat} {round : Nat}
  {frontier : List (TokenPath × Nat)}

variable {sequence : TokenPath} {entry : TokenPath × Nat} {path : TokenPath}

private theorem mem_circularSteps {step : NodeIndex × Nat} :
    step ∈ graph.circularSteps search sequence hops last ↔
      graph.AllowedStep search.constraints last step.1 ∧
        (graph.hopCost last step.1 = 1 ∧ hops < search.bounds.maxHops ∧ step.2 = hops + 1 ∨
          graph.hopCost last step.1 = 0 ∧ sequence.length ≤ hops + 1 ∧ step.2 = hops) := by
  obtain ⟨next, count⟩ := step
  simp only [circularSteps, mem_append]
  constructor
  · intro taken
    rcases taken with trade | wrap
    · rw [mem_ite_nil_right, mem_map] at trade
      obtain ⟨below, neighbor, member, shape⟩ := trade
      obtain ⟨rfl, rfl⟩ := Prod.mk.inj shape
      obtain ⟨step, costs⟩ := pairHasAllowedTrade_iff.mp (mem_filter.mp member).2
      exact ⟨step, .inl ⟨costs, below, rfl⟩⟩
    · rw [mem_ite_nil_left] at wrap
      obtain ⟨unused, wrap⟩ := wrap
      split at wrap
      · simp at wrap
      · rw [mem_ite_nil_right, mem_singleton] at wrap
        obtain ⟨allowed, shape⟩ := wrap
        obtain ⟨rfl, rfl⟩ := Prod.mk.inj shape
        obtain ⟨step, free⟩ := pairHasAllowedWrap_iff.mp allowed
        simp only [decide_eq_true_eq] at unused
        exact ⟨step, .inr ⟨free, by omega, rfl⟩⟩
  · intro ⟨step, kind⟩
    rcases kind with ⟨costs, below, rfl⟩ | ⟨free, unused, rfl⟩
    · left
      rw [if_pos below, mem_map]
      refine ⟨next, mem_filter.mpr ⟨mem_neighbors_of_allowedStep step costs, ?_⟩, rfl⟩
      exact pairHasAllowedTrade_iff.mpr ⟨step, costs⟩
    · right
      rw [if_neg (by simp only [decide_eq_true_eq]; omega),
        wrapTwin_of_isWrapPair (hopCost_eq_zero.mp free)]
      simp [pairHasAllowedWrap_iff.mpr ⟨step, free⟩]

private theorem circularSteps_eq_of_fst_eq {first second : NodeIndex × Nat}
    (here : first ∈ graph.circularSteps search sequence hops last)
    (there : second ∈ graph.circularSteps search sequence hops last) (same : first.1 = second.1) :
    first = second := by
  refine Prod.ext same ?_
  rcases (mem_circularSteps.mp here).2 with ⟨costs, -, count⟩ | ⟨costs, -, count⟩ <;>
    rcases (mem_circularSteps.mp there).2 with ⟨costs', -, count'⟩ | ⟨costs', -, count'⟩ <;>
    rw [same] at costs <;> omega

private theorem nodup_circularSteps (sequence : TokenPath) (hops : Nat) (last : NodeIndex) :
    (graph.circularSteps search sequence hops last).Nodup := by
  unfold circularSteps
  refine nodup_append.mpr ⟨?_, ?_, ?_⟩
  · split
    · refine ((nodup_neighbors last).filter _).map fun first second same => ?_
      exact (Prod.mk.inj same).1
    · exact nodup_nil
  · split
    · exact nodup_nil
    · split
      · exact nodup_nil
      · split <;> simp
  · intro first here second there same
    subst same
    rw [mem_ite_nil_right, mem_map] at here
    obtain ⟨-, neighbor, -, rfl⟩ := here
    rw [mem_ite_nil_left] at there
    obtain ⟨-, wrap⟩ := there
    split at wrap
    · simp at wrap
    · rw [mem_ite_nil_right, mem_singleton] at wrap
      have count := (Prod.mk.inj wrap.2).2
      omega

variable (graph search target round frontier) in
/-- The open sequences of a round, each once with the hops it counts. -/
structure Frontier : Prop where
  nodup : frontier.Nodup
  exact : ∀ entry, entry ∈ frontier ↔
    graph.WalkPath search (target, target) target entry.1 ∧ entry.1.length = round + 1 ∧
      entry.2 = pathCost graph.hopCost entry.1 ∧ entry.2 ≤ search.bounds.maxHops

private theorem frontier_zero : graph.Frontier search target 0 [([target], 0)] where
  nodup := nodup_singleton _
  exact entry := by
    rw [mem_singleton]
    constructor
    · intro single
      subst single
      exact ⟨SimplePath.single allowsNode_target, rfl, rfl, Nat.zero_le _⟩
    · intro ⟨walk, length, count, _⟩
      obtain ⟨node, shape⟩ := length_eq_one_iff.mp length
      have starts := walk.starts
      rw [shape] at starts count
      refine Prod.ext ?_ count
      rw [shape]
      simpa using starts

omit [NativeWrap] in
private theorem length_le_of_free_next {next : NodeIndex} (fresh : next ∉ front ++ [last])
    (free : graph.hopCost last next = 0) :
    (front ++ [last]).length ≤ pathCost graph.hopCost (front ++ [last]) + 1 := by
  by_contra more
  obtain ⟨prior, first, second, back, shape, free'⟩ := exists_free_step (Nat.lt_of_not_le more)
  refine fresh ?_
  rw [shape]
  rcases hopCost_one_free_pair first second last next free' free with rfl | rfl <;> simp

private theorem mem_extendSequence :
    entry ∈ graph.extendSequence target search (front ++ [last], hops) ↔
      ∃ next, entry.1 = front ++ [last, next] ∧ next ≠ target ∧ next ∉ front ++ [last] ∧
        graph.allowsNode search (target, target) next = true ∧
        (next, entry.2) ∈ graph.circularSteps search (front ++ [last]) hops last := by
  simp only [extendSequence, getLast?_concat, mem_map, mem_filter,
    Bool.and_eq_true, decide_eq_true_eq]
  constructor
  · intro ⟨step, ⟨member, ⟨away, fresh⟩, allowed⟩, shape⟩
    subst shape
    exact ⟨step.1, by simp, away, by simpa using fresh, allowed, member⟩
  · intro ⟨next, shape, away, fresh, allowed, member⟩
    exact ⟨(next, entry.2), ⟨member, ⟨away, by simpa using fresh⟩, allowed⟩,
      Prod.ext (by simp [shape]) rfl⟩

private theorem nodup_extendSequence (entry : TokenPath × Nat) :
    (graph.extendSequence target search entry).Nodup := by
  unfold extendSequence
  split
  · exact nodup_nil
  · refine ((nodup_circularSteps _ _ _).filter _).map fun first second same => ?_
    obtain ⟨paths, counts⟩ := Prod.mk.inj same
    exact Prod.ext (by simpa using paths) counts

private theorem dropLast_of_mem_extendSequence
    (made : entry ∈ graph.extendSequence target search first) : entry.1.dropLast = first.1 := by
  unfold extendSequence at made
  split at made
  · cases made
  · obtain ⟨step, _, rfl⟩ := mem_map.mp made
    exact dropLast_concat

section

variable (current : graph.Frontier search target round frontier)
include current

private theorem Frontier.eq_of_fst_eq {second : TokenPath × Nat} (here : first ∈ frontier)
    (there : second ∈ frontier) (same : first.1 = second.1) : first = second := by
  obtain ⟨-, -, count, -⟩ := (current.exact first).mp here
  obtain ⟨-, -, count', -⟩ := (current.exact second).mp there
  exact Prod.ext same (by rw [count, count', same])

/-- The steps that a round can take. -/
theorem Frontier.takes_iff {next : NodeIndex} {count : Nat} :
    (∃ hops, (front ++ [last], hops) ∈ frontier ∧
        (next, count) ∈ graph.circularSteps search (front ++ [last]) hops last) ↔
      (graph.WalkPath search (target, target) target (front ++ [last]) ∧
        graph.AllowedStep search.constraints last next) ∧ front.length = round ∧
      count = pathCost graph.hopCost (front ++ [last, next]) ∧ count ≤ search.bounds.maxHops ∧
      (graph.hopCost last next = 0 →
        (front ++ [last]).length ≤ pathCost graph.hopCost (front ++ [last]) + 1) := by
  have longer : (front ++ [last]).length = front.length + 1 := length_append
  have atMost := graph.hopCost_le_one last next
  simp only [current.exact, mem_circularSteps, pathCost_snoc]
  constructor
  · rintro ⟨hops, ⟨walk, length, rfl, most⟩, step, kind⟩
    refine ⟨⟨walk, step⟩, ?_⟩
    omega
  · rintro ⟨⟨walk, step⟩, length, counted, most, unused⟩
    refine ⟨_, ⟨walk, by omega, rfl, by omega⟩, step, ?_⟩
    omega

/-- The frontier moves on by one step. -/
theorem Frontier.extend :
    graph.Frontier search target (round + 1)
      (frontier.flatMap (graph.extendSequence target search)) := by
  constructor
  · refine nodup_flatMap_of_origin current.nodup (fun _ _ => nodup_extendSequence _) ?_
    intro first here second there entry made made'
    apply current.eq_of_fst_eq here there
    rw [← dropLast_of_mem_extendSequence made, dropLast_of_mem_extendSequence made']
  · intro entry
    rw [mem_flatMap]
    constructor
    · rintro ⟨⟨sequence, hops⟩, here, made⟩
      obtain ⟨front, last, rfl⟩ := ((current.exact _).mp here).1.exists_snoc
      obtain ⟨next, shape, -, fresh, allowed, taken⟩ := mem_extendSequence.mp made
      obtain ⟨⟨walk, step⟩, length, counted, most, -⟩ := current.takes_iff.mp ⟨hops, here, taken⟩
      rw [shape]
      exact ⟨SimplePath.snoc_iff.mpr ⟨walk, fresh, allowed, step⟩, by simp [length], counted, most⟩
    · rintro ⟨walk, length, count, most⟩
      rcases walk.eq_single_or_snoc with single | ⟨front, last, next, shape⟩
      · rw [single] at length
        simp at length
      · rw [shape] at walk length count
        obtain ⟨before, fresh, allowed, step⟩ := SimplePath.snoc_iff.mp walk
        have away : next ≠ target := fun same => fresh (same ▸ before.start_mem)
        obtain ⟨hops, here, taken⟩ := current.takes_iff.mpr ⟨⟨before, step⟩,
          by simpa using length, count, most, length_le_of_free_next fresh⟩
        exact ⟨(front ++ [last], hops), here,
          mem_extendSequence.mpr ⟨next, shape, away, fresh, allowed, taken⟩⟩

end

variable (graph search target front) in
/-- What closing a sequence into a round trip takes. -/
structure Closes (last : NodeIndex) : Prop where
  walk : graph.WalkPath search (target, target) target (front ++ [last])
  step : graph.AllowedStep search.constraints last target
  least : search.bounds.minHops ≤ max (pathCost graph.hopCost (front ++ [last, target])) 1
  most : pathCost graph.hopCost (front ++ [last, target]) ≤ search.bounds.maxHops
  unused : graph.hopCost last target = 0 →
    (front ++ [last]).length ≤ pathCost graph.hopCost (front ++ [last]) + 1

private theorem mem_closeSequence :
    path ∈ graph.closeSequence target search (front ++ [last], hops) ↔
      path = front ++ [last, target] ∧ ∃ count, search.bounds.minHops ≤ max count 1 ∧
        (target, count) ∈ graph.circularSteps search (front ++ [last]) hops last := by
  simp only [closeSequence, getLast?_concat, mem_map, mem_filter,
    Bool.and_eq_true, decide_eq_true_eq]
  constructor
  · intro ⟨⟨next, count⟩, ⟨member, closes, least⟩, shape⟩
    simp only at closes
    subst closes
    exact ⟨by simp [← shape], count, least, member⟩
  · intro ⟨shape, count, least, member⟩
    exact ⟨(target, count), ⟨member, rfl, least⟩, by simp [shape]⟩

private theorem nodup_closeSequence (entry : TokenPath × Nat) :
    (graph.closeSequence target search entry).Nodup := by
  unfold closeSequence
  split
  · exact nodup_nil
  · refine ((nodup_circularSteps _ _ _).filter _).map_on fun first here second there same => ?_
    refine circularSteps_eq_of_fst_eq (mem_filter.mp here).1 (mem_filter.mp there).1 ?_
    simpa using same

private theorem dropLast_of_mem_closeSequence
    (made : path ∈ graph.closeSequence target search first) : path.dropLast = first.1 := by
  unfold closeSequence at made
  split at made
  · cases made
  · obtain ⟨step, _, rfl⟩ := mem_map.mp made
    exact dropLast_concat

/-- The round trips that one round closes. -/
theorem Frontier.close (current : graph.Frontier search target round frontier) :
    (frontier.flatMap (graph.closeSequence target search)).Nodup ∧
      ∀ path, path ∈ frontier.flatMap (graph.closeSequence target search) ↔
        ∃ front last, path = front ++ [last, target] ∧ front.length = round ∧
          graph.Closes search target front last := by
  constructor
  · refine nodup_flatMap_of_origin current.nodup (fun _ _ => nodup_closeSequence _) ?_
    intro first here second there entry made made'
    apply current.eq_of_fst_eq here there
    rw [← dropLast_of_mem_closeSequence made, dropLast_of_mem_closeSequence made']
  · intro path
    rw [mem_flatMap]
    constructor
    · rintro ⟨⟨sequence, hops⟩, here, made⟩
      obtain ⟨front, last, rfl⟩ := ((current.exact _).mp here).1.exists_snoc
      obtain ⟨shape, total, least, taken⟩ := mem_closeSequence.mp made
      obtain ⟨⟨walk, step⟩, length, rfl, most, unused⟩ := current.takes_iff.mp ⟨hops, here, taken⟩
      exact ⟨front, last, shape, length, walk, step, least, most, unused⟩
    · rintro ⟨front, last, shape, length, walk, step, least, most, unused⟩
      obtain ⟨hops, here, taken⟩ := current.takes_iff.mpr ⟨⟨walk, step⟩, length, rfl, most, unused⟩
      exact ⟨(front ++ [last], hops), here, mem_closeSequence.mpr ⟨shape, _, least, taken⟩⟩

/-- The rounds list the round trips by their number of steps. -/
theorem Frontier.circularRounds (current : graph.Frontier search target round frontier)
    (rounds : Nat) : let closed := graph.circularRounds target search rounds frontier
    closed.Nodup ∧ closed.Pairwise (fun first second => first.length ≤ second.length) ∧
      ∀ path, path ∈ closed ↔ ∃ front last, path = front ++ [last, target] ∧
        round ≤ front.length ∧ front.length < round + rounds ∧
        graph.Closes search target front last := by
  induction rounds generalizing round frontier with
  | zero =>
    refine ⟨nodup_nil, List.Pairwise.nil, fun path => ⟨fun none => (by cases none), ?_⟩⟩
    intro ⟨front, last, _, least, most, _⟩
    omega
  | succ rounds ih =>
    obtain ⟨nodup, sorted, exact⟩ := ih current.extend
    obtain ⟨nodup', exact'⟩ := current.close
    have lengths : ∀ path ∈ frontier.flatMap (graph.closeSequence target search),
        path.length = round + 2 := by
      intro path here
      obtain ⟨front, last, shape, length, -⟩ := (exact' path).mp here
      simp [shape, length]
    have later : ∀ path ∈ graph.circularRounds target search rounds
        (frontier.flatMap (graph.extendSequence target search)), round + 2 < path.length := by
      intro path there
      obtain ⟨front, last, shape, least, -⟩ := (exact path).mp there
      simp only [shape, length_append, length_cons, length_nil]
      omega
    refine ⟨nodup_append.mpr ⟨nodup', nodup, ?_⟩,
      pairwise_append.mpr ⟨?_, sorted, ?_⟩, fun path => ?_⟩
    · intro path here other there same
      have first := lengths path here
      have second := later other there
      rw [← same] at second
      omega
    · refine pairwise_of_forall_mem_list fun first here second there => ?_
      rw [lengths first here, lengths second there]
    · intro path here other there
      rw [lengths path here]
      exact Nat.le_of_lt (later other there)
    · rw [TopologyGraph.circularRounds, mem_append, exact', exact]
      constructor
      · intro found
        rcases found with ⟨front, last, shape, length, closes⟩ |
          ⟨front, last, shape, least, most, closes⟩
        · exact ⟨front, last, shape, by omega, by omega, closes⟩
        · exact ⟨front, last, shape, by omega, by omega, closes⟩
      · intro ⟨front, last, shape, least, most, closes⟩
        by_cases now : front.length = round
        · exact .inl ⟨front, last, shape, now, closes⟩
        · exact .inr ⟨front, last, shape, by omega, by omega, closes⟩

private theorem pathCost_eq_zero_of_two_free
    (walk : graph.WalkPath search (target, target) target (front ++ [last]))
    (free : graph.hopCost last target = 0)
    (used : pathCost graph.hopCost (front ++ [last]) + 1 < (front ++ [last]).length) :
    front ≠ [] ∧ pathCost graph.hopCost (front ++ [last, target]) = 0 := by
  obtain ⟨prior, first, second, back, shape, free'⟩ := exists_free_step used
  have starts := walk.starts
  have nodup := walk.nodup
  rw [shape] at starts nodup
  obtain rfl : prior = [] := by
    cases prior with
    | nil => rfl
    | cons start prior =>
      obtain rfl : start = target := by simpa using starts
      rcases hopCost_one_free_pair first second last start free' free with rfl | rfl <;>
        simp at nodup
  obtain rfl : first = target := by simpa using starts
  have ends : last = first ∨ last = second :=
    hopCost_one_free_pair first second first last free' (hopCost_comm last first ▸ free)
  rcases eq_nil_or_concat back with rfl | ⟨back, final, rfl⟩
  · have pair : front ++ [last] = [first] ++ [second] := shape
    obtain ⟨rfl, same⟩ := append_inj' pair rfl
    obtain rfl := singleton_inj.mp same
    simp [pathCost, free, free']
  · rw [concat_eq_append] at shape nodup
    have longer : front ++ [last] = (first :: second :: back) ++ [final] := shape
    obtain ⟨-, same⟩ := append_inj' longer rfl
    obtain rfl := singleton_inj.mp same
    rcases ends with rfl | rfl <;> simp at nodup

variable (atLeastOne : 1 ≤ search.bounds.minHops)
  (ordered : search.bounds.minHops ≤ search.bounds.maxHops)
include atLeastOne ordered

/-- The conditions on closing say that the counted hops are within the bounds. -/
theorem closes_iff (walk : graph.WalkPath search (target, target) target (front ++ [last]))
    (step : graph.AllowedStep search.constraints last target) :
    (front.length < search.bounds.maxHops + (if graph.wrapEnds.isSome then 1 else 0) ∧
        graph.Closes search target front last) ↔
      search.bounds.minHops ≤ graph.countedHops (front ++ [last, target]) ∧
        graph.countedHops (front ++ [last, target]) ≤ search.bounds.maxHops := by
  have length : (front ++ [last]).length = front.length + 1 := by simp
  have total : pathCost graph.hopCost (front ++ [last, target]) =
      pathCost graph.hopCost (front ++ [last]) + graph.hopCost last target := pathCost_snoc _ _ _
  have counted : graph.countedHops (front ++ [last, target]) = if front = [] then
      max (pathCost graph.hopCost (front ++ [last, target])) 1
      else pathCost graph.hopCost (front ++ [last, target]) := by
    simp [countedHops, nonWrapHops]
  have step_le := graph.hopCost_le_one last target
  constructor
  · intro closing
    obtain ⟨-, -, -, least, most, unused⟩ := closing
    rw [counted]
    split
    · omega
    · rename_i moves
      have longer : 0 < front.length := length_pos_of_ne_nil moves
      omega
  · intro bounds
    rw [counted] at bounds
    have least : search.bounds.minHops ≤
        max (pathCost graph.hopCost (front ++ [last, target])) 1 := by
      split at bounds <;> omega
    have most : pathCost graph.hopCost (front ++ [last, target]) ≤ search.bounds.maxHops := by
      split at bounds <;> omega
    have unused : graph.hopCost last target = 0 →
        (front ++ [last]).length ≤ pathCost graph.hopCost (front ++ [last]) + 1 := by
      intro free
      by_contra used
      obtain ⟨moves, none⟩ := pathCost_eq_zero_of_two_free walk free (Nat.lt_of_not_le used)
      rw [if_neg moves, none] at bounds
      omega
    refine ⟨?_, walk, step, least, most, unused⟩
    have oneFree : (front ++ [last]).length ≤ pathCost graph.hopCost (front ++ [last]) + 2 :=
      length_le_of_one_free_pair hopCost_one_free_pair walk.nodup
    by_cases wrap : graph.wrapEnds.isSome = true
    · rw [if_pos wrap]
      omega
    · rw [if_neg wrap]
      have costly : 0 < graph.hopCost last target := by
        refine Nat.pos_of_ne_zero fun free => wrap ?_
        exact isSome_wrapEnds (hopCost_eq_zero.mp free)
      have noFree : (front ++ [last]).length ≤ pathCost graph.hopCost (front ++ [last]) + 1 := by
        by_contra more
        obtain ⟨_, _, _, _, -, free⟩ := exists_free_step (Nat.lt_of_not_le more)
        exact wrap (isSome_wrapEnds (hopCost_eq_zero.mp free))
      omega

/-- **Round trips are enumerated exactly.** -/
theorem circularTokenPaths_exact : (graph.circularTokenPaths target search).Nodup ∧
      (graph.circularTokenPaths target search).Pairwise
        (fun first second => first.length ≤ second.length) ∧
      ∀ path, path ∈ graph.circularTokenPaths target search ↔
        ∃ front last, path = front ++ [last, target] ∧
          graph.WalkPath search (target, target) target (front ++ [last]) ∧
          graph.AllowedStep search.constraints last target ∧
          search.bounds.minHops ≤ graph.countedHops path ∧
          graph.countedHops path ≤ search.bounds.maxHops := by
  obtain ⟨nodup, sorted, exact⟩ := (frontier_zero : graph.Frontier search target 0 _).circularRounds
    (search.bounds.maxHops + if graph.wrapEnds.isSome then 1 else 0)
  refine ⟨nodup, sorted, fun path => ?_⟩
  rw [circularTokenPaths, exact]
  constructor
  · intro ⟨front, last, shape, _, below, closes⟩
    rw [Nat.zero_add] at below
    refine ⟨front, last, shape, closes.walk, closes.step, ?_⟩
    rw [shape]
    exact (closes_iff atLeastOne ordered closes.walk closes.step).mp ⟨below, closes⟩
  · intro ⟨front, last, shape, walk, step, bounds⟩
    rw [shape] at bounds
    obtain ⟨below, closes⟩ := (closes_iff atLeastOne ordered walk step).mpr bounds
    exact ⟨front, last, shape, Nat.zero_le _, by rwa [Nat.zero_add], closes⟩

end TopologyGraph

end Fynd
