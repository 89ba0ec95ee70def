import Fynd.Graph.TokenRoutes

/-!
# Meeting in the middle

The levels of the two walks hold every simple path of their cost once. A route is cut
behind the trade that ends its first half, so it is joined from exactly one head and
one tail.
-/

namespace Fynd

open Foundation List

namespace TopologyGraph

variable {D : Type} {graph : TopologyGraph D} {path front : TokenPath} {midpoint : NodeIndex}
  {tails : List TokenPath}

/-! ## Joining a head -/

private theorem endsOnWrap_snoc (front : TokenPath) (last next : NodeIndex) :
    graph.endsOnWrap (front ++ [last, next]) = graph.isWrapPair last next := by
  simp [endsOnWrap]

private theorem collides_eq_false {back : TokenPath} (nodup : (front ++ [midpoint]).Nodup) :
    collides midpoint (front ++ [midpoint]) (midpoint :: back) = false ↔
      ∀ other ∈ front, other ∉ back := by
  have apart : ∀ other ∈ front, other ≠ midpoint := fun other member same =>
    (nodup_append.mp nodup).2.2 other member midpoint (by simp) same
  simp only [collides, any_eq_false, Bool.and_eq_true, decide_eq_true_eq,
    contains_iff_mem, mem_cons, not_and, not_or]
  refine ⟨fun clear other member => ?_, fun clear other member differs => ⟨differs, ?_⟩⟩
  · exact (clear other (mem_append_left _ member) (apart other member)).2
  · rcases mem_append.mp member with before | same
    · exact clear other before
    · exact absurd (by simpa using same) differs

private theorem mem_tailsByMidpoint {tail : TokenPath} : tail ∈ tailsByMidpoint tails midpoint ↔
      ∃ back, tail = midpoint :: back ∧ (midpoint :: back).reverse ∈ tails := by
  simp only [tailsByMidpoint, mem_map, mem_filter, decide_eq_true_eq]
  refine ⟨fun ⟨walked, ⟨member, ends⟩, turned⟩ => ?_, fun ⟨back, shape, member⟩ => ?_⟩
  · obtain ⟨init, rfl⟩ := getLast?_eq_some_iff.mp ends
    refine ⟨init.reverse, by simp [← turned], ?_⟩
    simpa using member
  · exact ⟨(midpoint :: back).reverse, ⟨member, by simp⟩, by simp [shape]⟩

private theorem mem_joinHead {before : NodeIndex} (nodup : (front ++ [before, midpoint]).Nodup) :
    path ∈ graph.joinHead tails (front ++ [before, midpoint]) ↔
      0 < graph.hopCost before midpoint ∧ ∃ back, path = front ++ before :: midpoint :: back ∧
        (midpoint :: back).reverse ∈ tails ∧ ∀ other ∈ front ++ [before], other ∉ back := by
  have ends : (front ++ [before, midpoint]).getLast? = some midpoint := by simp
  simp only [joinHead, ends, endsOnWrap_snoc, hopCost_pos]
  by_cases wrap : graph.isWrapPair before midpoint = true
  · simp [wrap]
  · rw [Bool.not_eq_true] at wrap
    simp only [wrap, Bool.false_eq_true, ↓reduceIte, mem_map, mem_filter,
      mem_tailsByMidpoint, Bool.not_eq_true', true_and]
    rw [append_cons] at nodup ⊢
    refine ⟨fun ⟨tail, ⟨⟨back, turned, member⟩, clear⟩, joined⟩ => ?_,
      fun ⟨back, joined, member, clear⟩ => ?_⟩
    · subst turned
      exact ⟨back, by simp [← joined], member, (collides_eq_false nodup).mp clear⟩
    · exact ⟨midpoint :: back, ⟨⟨back, rfl, member⟩, (collides_eq_false nodup).mpr clear⟩,
        by simp [joined]⟩

private theorem nodup_joinHead (nodup : tails.Nodup) (head : TokenPath) :
    (graph.joinHead tails head).Nodup := by
  unfold joinHead
  split
  · exact nodup_nil
  · split
    · exact nodup_nil
    · have turned : ∀ midpoint, (tailsByMidpoint tails midpoint).Nodup := fun midpoint =>
        (nodup.filter _).map reverse_injective
      refine ((turned _).filter _).map_on fun first here second there same => ?_
      obtain ⟨back, rfl, -⟩ := mem_tailsByMidpoint.mp (mem_filter.mp here).1
      obtain ⟨back', rfl, -⟩ := mem_tailsByMidpoint.mp (mem_filter.mp there).1
      simpa using same

private theorem countedHops_of_pos (positive : 0 < pathCost graph.hopCost path) :
    graph.countedHops path = pathCost graph.hopCost path := by
  simp only [countedHops, nonWrapHops]
  split
  · exact Nat.max_eq_left positive
  · rfl

/-! ## The levels of a walk -/

variable [NativeWrap] {search : RouteSearch} {endpoints : NodeIndex × NodeIndex} {start : NodeIndex}

variable (graph search endpoints start) in
/-- A path that a walk out of a token may take. -/
abbrev WalkPath (path : TokenPath) : Prop :=
  SimplePath (graph.AllowedStep search.constraints)
    (fun node => graph.allowsNode search endpoints node = true) start path

variable (graph search endpoints) in
/-- One more step of a walk, with what it costs. -/
def Extends (price : Nat) (sequence path : TokenPath) : Prop :=
  ∃ front last next, sequence = front ++ [last] ∧ path = front ++ [last, next] ∧
    next ∉ sequence ∧ graph.allowsNode search endpoints next = true ∧
    graph.AllowedStep search.constraints last next ∧ graph.hopCost last next = price

variable {price : Nat} {sequence : TokenPath} {hops : Nat} {level : List TokenPath}

private theorem Extends.walkPath (extended : graph.Extends search endpoints price sequence path)
    (walk : graph.WalkPath search endpoints start sequence) :
    graph.WalkPath search endpoints start path ∧
      pathCost graph.hopCost path = pathCost graph.hopCost sequence + price := by
  obtain ⟨front, last, next, rfl, rfl, fresh, allowed, step, costs⟩ := extended
  rw [pathCost_snoc, costs]
  exact ⟨SimplePath.snoc_iff.mpr ⟨walk, fresh, allowed, step⟩, rfl⟩

private theorem Extends.dropLast (extended : graph.Extends search endpoints price sequence path) :
    sequence = path.dropLast := by
  obtain ⟨front, last, next, rfl, rfl, -⟩ := extended
  simp

private theorem extends_snoc_iff {last : NodeIndex} :
    graph.Extends search endpoints price (front ++ [last]) path ↔
      ∃ next, path = front ++ [last, next] ∧ next ∉ front ++ [last] ∧
        graph.allowsNode search endpoints next = true ∧
        graph.AllowedStep search.constraints last next ∧ graph.hopCost last next = price := by
  refine ⟨fun ⟨front', last', next, same, rest⟩ => ?_, fun ⟨next, rest⟩ => ?_⟩
  · obtain ⟨rfl, ends⟩ := append_inj' same rfl
    obtain rfl := singleton_inj.mp ends
    exact ⟨next, rest⟩
  · exact ⟨front, last, next, rfl, rest⟩

private theorem WalkPath.exists_extends (walk : graph.WalkPath search endpoints start path)
    (moves : path ≠ [start]) : ∃ sequence price, graph.WalkPath search endpoints start sequence ∧
      graph.Extends search endpoints price sequence path ∧
      (price = 0 ∨ price = 1 ∧ EndsCostly graph.hopCost path) := by
  rcases walk.eq_single_or_snoc with single | ⟨front, last, next, rfl⟩
  · exact absurd single moves
  · obtain ⟨before, fresh, allowed, step⟩ := SimplePath.snoc_iff.mp walk
    refine ⟨front ++ [last], graph.hopCost last next, before,
      ⟨front, last, next, rfl, rfl, fresh, allowed, step, rfl⟩, ?_⟩
    rcases Nat.eq_zero_or_pos (graph.hopCost last next) with free | costly
    · exact .inl free
    · exact .inr ⟨Nat.le_antisymm (hopCost_le_one _ _) costly, front, last, next, rfl, costly⟩

private theorem mem_extendByTrade : path ∈ graph.extendByTrade endpoints search sequence ↔
      graph.Extends search endpoints 1 sequence path := by
  rcases eq_nil_or_concat sequence with rfl | ⟨front, last, rfl⟩
  · simp [extendByTrade, Extends]
  · rw [concat_eq_append, extends_snoc_iff]
    simp only [extendByTrade, getLast?_concat, mem_map, mem_filter,
      Bool.and_eq_true, pairHasAllowedTrade_iff]
    refine ⟨fun ⟨next, ⟨_, ⟨fresh, allowed⟩, step, costs⟩, shape⟩ => ?_, fun extended => ?_⟩
    · refine ⟨next, ?_, by simpa using fresh, allowed, step, costs⟩
      rw [← shape, append_assoc, singleton_append]
    · obtain ⟨next, rfl, fresh, allowed, step, costs⟩ := extended
      exact ⟨next, ⟨mem_neighbors_of_allowedStep step costs,
        ⟨by simpa using fresh, allowed⟩, step, costs⟩, by simp⟩

private theorem mem_maybeExtendByWrap : path ∈ graph.maybeExtendByWrap endpoints search sequence ↔
      graph.Extends search endpoints 0 sequence path := by
  rcases eq_nil_or_concat sequence with rfl | ⟨front, last, rfl⟩
  · simp [maybeExtendByWrap, Extends]
  · rw [concat_eq_append, extends_snoc_iff]
    simp only [maybeExtendByWrap, getLast?_concat]
    refine ⟨fun member => ?_, fun extended => ?_⟩
    · split at member
      · simp at member
      · rename_i twin _
        split at member
        · simp at member
        · rename_i guards
          simp only [Bool.or_eq_true, Bool.not_eq_true', not_or, Bool.not_eq_false,
            pairHasAllowedWrap_iff] at guards
          obtain ⟨⟨fresh, allowed⟩, step, costs⟩ := guards
          exact ⟨twin, by simpa using member, by simpa using fresh, allowed, step, costs⟩
    · obtain ⟨next, rfl, fresh, allowed, step, costs⟩ := extended
      have wrap := pairHasAllowedWrap_iff.mpr ⟨step, costs⟩
      rw [wrapTwin_of_isWrapPair (hopCost_eq_zero.mp costs)]
      simp only [wrap, allowed, show (front ++ [last]).contains next = false by simpa using fresh]
      simp

private theorem nodup_extendByTrade (sequence : TokenPath) :
    (graph.extendByTrade endpoints search sequence).Nodup := by
  unfold extendByTrade
  split
  · exact nodup_nil
  · refine ((nodup_neighbors _).filter _).map fun first second same => ?_
    simpa using same

private theorem nodup_maybeExtendByWrap (sequence : TokenPath) :
    (graph.maybeExtendByWrap endpoints search sequence).Nodup := by
  unfold maybeExtendByWrap
  split
  · exact nodup_nil
  · split
    · exact nodup_nil
    · split <;> simp

variable (graph search endpoints start hops level) in
/-- The paths of one cost, each once. -/
structure Level : Prop where
  nodup : level.Nodup
  exact : ∀ path, path ∈ level ↔
    graph.WalkPath search endpoints start path ∧ pathCost graph.hopCost path = hops

variable (graph search endpoints start hops level) in
/-- Those of them whose last step is not the wrap. -/
structure TradeLevel : Prop where
  nodup : level.Nodup
  exact : ∀ path, path ∈ level ↔
    graph.WalkPath search endpoints start path ∧ pathCost graph.hopCost path = hops ∧
      (path = [start] ∨ EndsCostly graph.hopCost path)

private theorem tradeLevel_zero (free : graph.allowsNode search endpoints start = true) :
    graph.TradeLevel search endpoints start 0 [[start]] where
  nodup := nodup_singleton _
  exact path := by
    rw [mem_singleton]
    refine ⟨fun single => ?_, fun ⟨_, free', last⟩ => ?_⟩
    · subst single
      exact ⟨SimplePath.single free, rfl, .inl rfl⟩
    · rcases last with single | ⟨front, last, next, rfl, costly⟩
      · exact single
      · rw [pathCost_snoc] at free'
        omega

private theorem Extends.not_endsCostly (extended : graph.Extends search endpoints 0 sequence path) :
    ¬ EndsCostly graph.hopCost path := by
  obtain ⟨front, last, next, -, rfl, -, -, -, free⟩ := extended
  intro ⟨front', last', next', same, costly⟩
  obtain ⟨-, ends⟩ := append_inj' same rfl
  simp only [List.cons.injEq, and_true] at ends
  rw [← ends.1, ← ends.2, free] at costly
  exact absurd costly (Nat.lt_irrefl 0)

private theorem Extends.not_twice_free {first second third : TokenPath}
    (inner : graph.Extends search endpoints 0 first second)
    (outer : graph.Extends search endpoints 0 second third) : False := by
  obtain ⟨front, before, last, -, rfl, -, -, -, free⟩ := inner
  obtain ⟨front', last', next, same, -, fresh, -, -, free'⟩ := outer
  rw [append_cons] at same
  obtain ⟨-, ends⟩ := append_inj' same rfl
  obtain rfl := singleton_inj.mp ends
  rcases hopCost_one_free_pair before last last next free free' with rfl | rfl <;> simp at fresh

private theorem not_extends_of_wrapEnds_none (none : ¬ graph.wrapEnds.isSome = true) :
    ¬ graph.Extends search endpoints 0 sequence path := by
  intro ⟨_, last, next, _, _, _, _, _, free⟩
  exact none (isSome_wrapEnds (hopCost_eq_zero.mp free))

/-- The wrap completes a level. -/
theorem TradeLevel.withWraps (trades : graph.TradeLevel search endpoints start hops level) :
    graph.Level search endpoints start hops (graph.withWraps endpoints search level) := by
  have member : ∀ path, path ∈ graph.withWraps endpoints search level ↔
      path ∈ level ∨ ∃ sequence ∈ level, graph.Extends search endpoints 0 sequence path := by
    intro path
    unfold TopologyGraph.withWraps
    split
    · simp only [mem_append, mem_flatMap, mem_maybeExtendByWrap]
    · rename_i none
      simp [not_extends_of_wrapEnds_none none]
  constructor
  · unfold TopologyGraph.withWraps
    split
    · refine nodup_append.mpr ⟨trades.nodup, ?_, ?_⟩
      · refine nodup_flatMap_of_origin trades.nodup (fun _ _ => nodup_maybeExtendByWrap _) ?_
        intro first _ second _ path here there
        rw [(mem_maybeExtendByWrap.mp here).dropLast, (mem_maybeExtendByWrap.mp there).dropLast]
      · intro path here other there same
        subst same
        obtain ⟨sequence, -, extended⟩ := mem_flatMap.mp there
        rw [mem_maybeExtendByWrap] at extended
        rcases ((trades.exact path).mp here).2.2 with rfl | costly
        · obtain ⟨front, last, next, -, shape, -⟩ := extended
          exact absurd (congrArg List.length shape) (by simp)
        · exact extended.not_endsCostly costly
    · exact trades.nodup
  · intro path
    rw [member]
    constructor
    · intro found
      rcases found with here | ⟨sequence, here, extended⟩
      · obtain ⟨walk, costs, -⟩ := (trades.exact path).mp here
        exact ⟨walk, costs⟩
      · obtain ⟨walk, costs, -⟩ := (trades.exact sequence).mp here
        obtain ⟨longer, total⟩ := extended.walkPath walk
        exact ⟨longer, by omega⟩
    · intro ⟨walk, costs⟩
      by_cases single : path = [start]
      · exact .inl ((trades.exact path).mpr ⟨walk, costs, .inl single⟩)
      · obtain ⟨sequence, price, before, extended, free | ⟨-, costly⟩⟩ :=
          walk.exists_extends single
        · subst free
          have total := (extended.walkPath before).2
          refine .inr ⟨sequence, (trades.exact sequence).mpr ⟨before, by omega, ?_⟩, extended⟩
          by_cases alone : sequence = [start]
          · exact .inl alone
          · obtain ⟨prior, price, -, earlier, free | ⟨-, costly⟩⟩ := before.exists_extends alone
            · subst free
              exact (earlier.not_twice_free extended).elim
            · exact .inr costly
        · exact .inl ((trades.exact path).mpr ⟨walk, costs, .inr costly⟩)

/-- Trades lead from a level to the next. -/
theorem Level.extendByTrade (complete : graph.Level search endpoints start hops level) :
    graph.TradeLevel search endpoints start (hops + 1)
      (level.flatMap (graph.extendByTrade endpoints search)) := by
  constructor
  · refine nodup_flatMap_of_origin complete.nodup (fun _ _ => nodup_extendByTrade _) ?_
    intro first _ second _ path here there
    rw [(mem_extendByTrade.mp here).dropLast, (mem_extendByTrade.mp there).dropLast]
  · intro path
    simp only [mem_flatMap, mem_extendByTrade]
    constructor
    · intro ⟨sequence, here, extended⟩
      obtain ⟨walk, costs⟩ := (complete.exact sequence).mp here
      obtain ⟨longer, total⟩ := extended.walkPath walk
      obtain ⟨front, last, next, -, shape, -, -, -, costly⟩ := extended
      exact ⟨longer, by omega, .inr ⟨front, last, next, shape, by omega⟩⟩
    · intro ⟨walk, costs, last⟩
      have moves : path ≠ [start] := fun single => by
        rw [single] at costs
        simp [pathCost] at costs
      obtain ⟨sequence, price, before, extended, free | ⟨price_eq, -⟩⟩ := walk.exists_extends moves
      · subst free
        exact absurd (last.resolve_left moves) extended.not_endsCostly
      · subst price_eq
        have total := (extended.walkPath before).2
        exact ⟨sequence, (complete.exact sequence).mpr ⟨before, by omega⟩, extended⟩

private theorem TradeLevel.levelsFrom (trades : graph.TradeLevel search endpoints start hops level)
    {more further : Nat} (within : further ≤ more) :
    ∃ found, (graph.levelsFrom endpoints search more level)[further]? = some found ∧
      graph.Level search endpoints start (hops + further) found := by
  induction more generalizing hops level further with
  | zero =>
    obtain rfl : further = 0 := by omega
    exact ⟨_, rfl, trades.withWraps⟩
  | succ more ih =>
    cases further with
    | zero => exact ⟨_, rfl, trades.withWraps⟩
    | succ further =>
      obtain ⟨found, listed, exact⟩ := ih trades.withWraps.extendByTrade
        (Nat.le_of_succ_le_succ within)
      refine ⟨found, by simpa [TopologyGraph.levelsFrom] using listed, ?_⟩
      rwa [show hops + (further + 1) = hops + 1 + further by omega]

/-- **Levels are exact.** Each level of a walk holds every path of its hop count once. -/
theorem walkLevels_exact (free : graph.allowsNode search endpoints start = true) {further : Nat}
    (within : further ≤ hops) :
    ∃ found, (graph.walkLevels start hops endpoints search)[further]? = some found ∧
      graph.Level search endpoints start further found := by
  obtain ⟨found, listed, exact⟩ := (tradeLevel_zero free).levelsFrom within
  exact ⟨found, listed, by rwa [Nat.zero_add] at exact⟩

/-! ## Meeting in the middle -/

section Join

variable {source target : NodeIndex} {heads tails : List TokenPath} {headHops tailHops : Nat}

section

variable (headLevel : graph.Level search (source, target) source headHops heads)
  (positive : 0 < headHops)
include headLevel positive

private theorem Level.head_shape {head : TokenPath} (member : head ∈ heads) :
    ∃ front before midpoint, head = front ++ [before, midpoint] := by
  obtain ⟨walk, costs⟩ := (headLevel.exact head).mp member
  rcases walk.eq_single_or_snoc with single | shape
  · rw [single] at costs
    simp [pathCost] at costs
    omega
  · exact shape

variable (tailLevel : graph.Level search (source, target) target tailHops tails)
include tailLevel

private theorem Level.nodup_join : (heads.flatMap (graph.joinHead tails)).Nodup := by
  refine nodup_flatMap_of_origin headLevel.nodup (fun _ _ => nodup_joinHead tailLevel.nodup _) ?_
  intro first here second there path joined joined'
  obtain ⟨walk, costs⟩ := (headLevel.exact first).mp here
  obtain ⟨walk', costs'⟩ := (headLevel.exact second).mp there
  obtain ⟨front, before, midpoint, rfl⟩ := headLevel.head_shape positive here
  obtain ⟨front', before', midpoint', rfl⟩ := headLevel.head_shape positive there
  obtain ⟨costly, back, rfl, -⟩ := (mem_joinHead walk.nodup).mp joined
  obtain ⟨costly', back', same, -⟩ := (mem_joinHead walk'.nodup).mp joined'
  have cuts : (front ++ [before, midpoint]) ++ back =
      (front' ++ [before', midpoint']) ++ back' := by
    simpa using same
  exact (costly_cut_unique cuts ⟨front, before, midpoint, rfl, costly⟩
    ⟨front', before', midpoint', rfl, costly'⟩ (costs.trans costs'.symm)).1

/-- A joined path, cut where the two walks meet. -/
theorem Level.exists_halves {path : TokenPath}
    (joined : path ∈ heads.flatMap (graph.joinHead tails)) :
    ∃ front midpoint back, path = front ++ midpoint :: back ∧
      graph.WalkPath search (source, target) source (front ++ [midpoint]) ∧
      graph.WalkPath search (source, target) target (midpoint :: back).reverse ∧
      pathCost graph.hopCost (front ++ [midpoint]) = headHops ∧
      pathCost graph.hopCost (midpoint :: back) = tailHops ∧ ∀ node ∈ front, node ∉ back := by
  obtain ⟨head, here, joined⟩ := mem_flatMap.mp joined
  obtain ⟨walk, costs⟩ := (headLevel.exact head).mp here
  obtain ⟨front, before, midpoint, rfl⟩ := headLevel.head_shape positive here
  obtain ⟨-, back, rfl, there, clear⟩ := (mem_joinHead walk.nodup).mp joined
  obtain ⟨walk', costs'⟩ := (tailLevel.exact _).mp there
  rw [pathCost_reverse hopCost_comm] at costs'
  rw [append_cons] at walk costs
  exact ⟨front ++ [before], midpoint, back, append_cons _ _ _, walk, walk', costs, costs', clear⟩

private theorem Level.cost_join {path : TokenPath}
    (joined : path ∈ heads.flatMap (graph.joinHead tails)) :
    pathCost graph.hopCost path = headHops + tailHops := by
  obtain ⟨front, midpoint, back, rfl, -, -, costs, costs', -⟩ :=
    headLevel.exists_halves positive tailLevel joined
  rw [pathCost_append, costs, costs']

/-- **The join is exact.** Where the paths to the target turn back, the joined paths are those from
one end to the other with the hops of both halves. -/
theorem Level.mem_join (turns : graph.TurnsBack search source target tailHops) (path : TokenPath) :
    path ∈ heads.flatMap (graph.joinHead tails) ↔
      graph.WalkPath search (source, target) source path ∧ path.getLast? = some target ∧
        pathCost graph.hopCost path = headHops + tailHops := by
  constructor
  · intro joined
    obtain ⟨front, midpoint, back, rfl, walk, walk', costs, costs', clear⟩ :=
      headLevel.exists_halves positive tailLevel joined
    have last : (midpoint :: back).reverse.getLast? = some midpoint := by simp
    have ends : (midpoint :: back).getLast? = some target := by
      rw [← head?_reverse, walk'.starts]
    have forward := (turns _ (nodup_reverse.mp walk'.nodup) ends costs'.le fun node member =>
      walk'.allowed node (mem_reverse.mpr member)).mpr walk'.linked
    have turned := walk'.reverse (by rwa [reverse_reverse]) last
    rw [reverse_reverse] at turned
    refine ⟨SimplePath.append_iff.mpr ⟨walk, turned, clear⟩, ?_, by
      rw [pathCost_append, costs, costs']⟩
    rw [getLast?_append_cons, ends]
  · intro ⟨walk, ends, costs⟩
    rw [mem_flatMap]
    have enough : headHops ≤ pathCost graph.hopCost path := by omega
    obtain ⟨head, back, rfl, ⟨front, before, midpoint, rfl, costly⟩, reached⟩ :=
      exists_costly_cut hopCost_le_one positive enough
    rw [append_cons, append_assoc, singleton_append] at walk ends costs
    obtain ⟨early, late, clear⟩ := SimplePath.append_iff.mp walk
    rw [pathCost_append, ← append_cons, reached] at costs
    rw [← append_cons] at early
    refine ⟨_, (headLevel.exact _).mpr ⟨early, reached⟩,
      (mem_joinHead early.nodup).mpr ⟨costly, back, by simp, ?_, clear⟩⟩
    have finish : (midpoint :: back).getLast? = some target := by
      rwa [getLast?_append_cons] at ends
    have tailCosts : pathCost graph.hopCost (midpoint :: back) = tailHops := by omega
    have turned := (turns _ late.nodup finish tailCosts.le late.allowed).mp late.linked
    refine (tailLevel.exact _).mpr ⟨late.reverse turned finish, ?_⟩
    rw [pathCost_reverse hopCost_comm, tailCosts]

end

omit [NativeWrap] in
theorem allowsNode_source : graph.allowsNode search (source, target) source = true := by
  simp [allowsNode, RouteSearch.allowsToken, ResolvedRouteConstraints.allowsToken]

omit [NativeWrap] in
theorem allowsNode_target : graph.allowsNode search (source, target) target = true := by
  simp [allowsNode, RouteSearch.allowsToken, ResolvedRouteConstraints.allowsToken]

variable (graph search source target) in
/-- The paths of one length count so many hops, each path once, and are all those that do where the
paths to the target turn back. -/
theorem joinLength_exact {length maxHops : Nat} (positive : 0 < length)
    (within : length ≤ maxHops) :
    let joined := graph.joinLength
      (graph.walkLevels source ((maxHops + 1) / 2) (source, target) search)
      (graph.walkLevels target (maxHops / 2) (source, target) search) length
    joined.Nodup ∧ (∀ path ∈ joined, pathCost graph.hopCost path = length) ∧
      (graph.TurnsBack search source target (maxHops / 2) → ∀ path, path ∈ joined ↔
        graph.WalkPath search (source, target) source path ∧ path.getLast? = some target ∧
          pathCost graph.hopCost path = length) := by
  intro joined
  have early : (length + 1) / 2 ≤ (maxHops + 1) / 2 := by omega
  have late : length - (length + 1) / 2 ≤ maxHops / 2 := by omega
  obtain ⟨heads, listed, headLevel⟩ := walkLevels_exact
    (allowsNode_source : graph.allowsNode search (source, target) source = true) early
  obtain ⟨tails, listed', tailLevel⟩ := walkLevels_exact
    (allowsNode_target : graph.allowsNode search (source, target) target = true) late
  have split : joined = heads.flatMap (graph.joinHead tails) := by
    simp only [joined, joinLength, listed, listed']
  have half : 0 < (length + 1) / 2 := by omega
  have whole : (length + 1) / 2 + (length - (length + 1) / 2) = length := by omega
  rw [split]
  refine ⟨headLevel.nodup_join half tailLevel, fun path member => ?_, fun turns path => ?_⟩
  · rw [headLevel.cost_join half tailLevel member, whole]
  · have near : graph.TurnsBack search source target (length - (length + 1) / 2) :=
      fun path once ends short => turns path once ends (short.trans late)
    rw [headLevel.mem_join half tailLevel near, whole]

section

variable {path : TokenPath} (distinct : source ≠ target)
  (walk : graph.WalkPath search (source, target) source path) (ends : path.getLast? = some target)
include distinct walk ends

private theorem WalkPath.eq_lone_wrap (free : pathCost graph.hopCost path = 0) :
    path = [source, target] := by
  have short : path.length ≤ pathCost graph.hopCost path + 2 :=
    length_le_of_one_free_pair hopCost_one_free_pair walk.nodup
  have starts := walk.starts
  match path with
  | [] => cases starts
  | [only] =>
    obtain rfl : only = source := by simpa using starts
    exact absurd (by simpa using ends) distinct
  | [first, second] =>
    obtain rfl : first = source := by simpa using starts
    obtain rfl : second = target := by simpa using ends
    rfl
  | _ :: _ :: _ :: _ =>
    simp only [length_cons] at short
    omega

/-- The bounds on counted hops, told apart by whether the path is the wrap alone. -/
theorem WalkPath.countedHops_iff {minHops maxHops : Nat} (atLeastOne : 1 ≤ minHops)
    (ordered : minHops ≤ maxHops) :
    minHops ≤ graph.countedHops path ∧ graph.countedHops path ≤ maxHops ↔
      (minHops = 1 ∧ path = [source, target] ∧ graph.hopCost source target = 0) ∨
        minHops ≤ pathCost graph.hopCost path ∧ pathCost graph.hopCost path ≤ maxHops := by
  rcases Nat.eq_zero_or_pos (pathCost graph.hopCost path) with free | costly
  · obtain rfl := walk.eq_lone_wrap distinct ends free
    have lone : graph.countedHops [source, target] = 1 := by simp [countedHops, nonWrapHops, free]
    have step : graph.hopCost source target = 0 := by simpa [pathCost] using free
    rw [lone, free]
    simp only [step, and_self, and_true]
    omega
  · rw [countedHops_of_pos costly]
    refine ⟨.inr, fun bounds => bounds.resolve_left fun lone => ?_⟩
    obtain ⟨-, shape, step⟩ := lone
    rw [shape] at costly
    simp [pathCost, step] at costly

end

variable (graph search source target) in
/-- The joined paths of all lengths within the bounds, shortest first. -/
theorem joinedLengths_exact {minHops : Nat} (maxHops : Nat) (atLeastOne : 1 ≤ minHops) :
    let joined := (List.range' minHops (maxHops + 1 - minHops)).flatMap (graph.joinLength
      (graph.walkLevels source ((maxHops + 1) / 2) (source, target) search)
      (graph.walkLevels target (maxHops / 2) (source, target) search))
    joined.Nodup ∧
      joined.Pairwise (fun first second => graph.nonWrapHops first ≤ graph.nonWrapHops second) ∧
      (∀ path ∈ joined, minHops ≤ graph.nonWrapHops path) ∧
      (graph.TurnsBack search source target (maxHops / 2) → ∀ path, path ∈ joined ↔
        graph.WalkPath search (source, target) source path ∧ path.getLast? = some target ∧
          minHops ≤ pathCost graph.hopCost path ∧ pathCost graph.hopCost path ≤ maxHops) := by
  intro joined
  have exact : ∀ length ∈ List.range' minHops (maxHops + 1 - minHops), _ := fun length member =>
    have bounds : minHops ≤ length ∧ length ≤ maxHops := by
      obtain ⟨step, below, rfl⟩ := mem_range'.mp member
      omega
    joinLength_exact graph search source target (Nat.lt_of_lt_of_le atLeastOne bounds.1) bounds.2
  refine ⟨?_, ?_, fun path member => ?_, fun turns path => ?_⟩
  · refine nodup_flatMap_of_origin nodup_range' (fun length member => (exact length member).1) ?_
    intro first here second there path joined joined'
    rw [← (exact first here).2.1 path joined, (exact second there).2.1 path joined']
  · refine pairwise_flatMap.mpr ⟨fun length member => ?_, ?_⟩
    · refine pairwise_of_forall_mem_list fun first here second there => ?_
      rw [nonWrapHops, nonWrapHops, (exact length member).2.1 first here,
        (exact length member).2.1 second there]
    · refine List.Pairwise.imp_of_mem ?_ pairwise_lt_range'
      intro _ _ first second lower path here path' there
      rw [nonWrapHops, nonWrapHops, (exact _ first).2.1 path here,
        (exact _ second).2.1 path' there]
      exact Nat.le_of_lt lower
  · obtain ⟨length, listed, here⟩ := mem_flatMap.mp member
    obtain ⟨step, below, rfl⟩ := mem_range'.mp listed
    rw [nonWrapHops, (exact _ listed).2.1 path here]
    omega
  · rw [mem_flatMap]
    constructor
    · intro ⟨length, member, here⟩
      obtain ⟨walk, ends, costs⟩ := ((exact length member).2.2 turns path).mp here
      obtain ⟨step, below, rfl⟩ := mem_range'.mp member
      exact ⟨walk, ends, by omega, by omega⟩
    · intro ⟨walk, ends, least, most⟩
      have member : pathCost graph.hopCost path ∈ List.range' minHops (maxHops + 1 - minHops) := by
        rw [mem_range']
        exact ⟨pathCost graph.hopCost path - minHops, by omega, by omega⟩
      exact ⟨_, member, ((exact _ member).2.2 turns path).mpr ⟨walk, ends, rfl⟩⟩

private theorem mem_loneWrap : path ∈ (if search.bounds.minHops = 1 &&
    graph.pairHasAllowedWrap source target search.constraints then [[source, target]] else []) ↔
    search.bounds.minHops = 1 ∧ path = [source, target] ∧ graph.hopCost source target = 0 ∧
      graph.AllowedStep search.constraints source target := by
  rw [mem_ite_nil_right, Bool.and_eq_true, decide_eq_true_eq, pairHasAllowedWrap_iff,
    mem_singleton]
  tauto

private theorem nonWrapHops_of_mem_loneWrap (here : path ∈ (if search.bounds.minHops = 1 &&
    graph.pairHasAllowedWrap source target search.constraints then [[source, target]] else [])) :
    graph.nonWrapHops path = 0 := by
  obtain ⟨-, shape, free, -⟩ := mem_loneWrap.mp here
  simp [shape, nonWrapHops, pathCost, free]

variable (graph) in
/-- **Between two tokens the search is exact** where the paths to the target turn back, and in every
graph it returns no path twice and the shorter ones first. -/
theorem bidirectionalSearch_exact (distinct : source ≠ target)
    (atLeastOne : 1 ≤ search.bounds.minHops)
    (ordered : search.bounds.minHops ≤ search.bounds.maxHops) :
    (graph.bidirectionalSearch source target search).Nodup ∧
      (graph.bidirectionalSearch source target search).Pairwise
        (fun first second => graph.nonWrapHops first ≤ graph.nonWrapHops second) ∧
      (graph.TurnsBack search source target (search.bounds.maxHops / 2) →
        ∀ path, path ∈ graph.bidirectionalSearch source target search ↔
          graph.WalkPath search (source, target) source path ∧ path.getLast? = some target ∧
            search.bounds.minHops ≤ graph.countedHops path ∧
            graph.countedHops path ≤ search.bounds.maxHops) := by
  obtain ⟨nodup, sorted, least, exact⟩ :=
    joinedLengths_exact graph search source target search.bounds.maxHops atLeastOne
  refine ⟨nodup_append.mpr ⟨?_, nodup, ?_⟩, pairwise_append.mpr ⟨?_, sorted, ?_⟩, ?_⟩
  · split <;> simp
  · intro path here other there same
    subst same
    have costs := least path there
    rw [nonWrapHops_of_mem_loneWrap here] at costs
    omega
  · split <;> simp
  · intro path here other _
    rw [nonWrapHops_of_mem_loneWrap here]
    exact Nat.zero_le _
  · intro turns path
    rw [bidirectionalSearch, mem_append, mem_loneWrap, exact turns]
    constructor
    · intro found
      rcases found with ⟨one, rfl, free, step⟩ | ⟨walk, ends, bounds⟩
      · have walk : graph.WalkPath search (source, target) source ([] ++ [source, target]) :=
          SimplePath.snoc_iff.mpr ⟨SimplePath.single allowsNode_source,
            by simpa using distinct.symm, allowsNode_target, step⟩
        refine ⟨walk, rfl, (walk.countedHops_iff distinct rfl atLeastOne ordered).mpr ?_⟩
        exact .inl ⟨one, rfl, free⟩
      · exact ⟨walk, ends,
          (walk.countedHops_iff distinct ends atLeastOne ordered).mpr (.inr bounds)⟩
    · intro route
      obtain ⟨walk, ends, bounds⟩ := route
      rcases (walk.countedHops_iff distinct ends atLeastOne ordered).mp bounds with
        ⟨one, shape, free⟩ | within
      · subst shape
        exact .inl ⟨one, rfl, free, by simpa using walk.linked⟩
      · exact .inr ⟨walk, ends, within⟩

end Join

end TopologyGraph

end Fynd
