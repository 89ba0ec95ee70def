import Mathlib.Data.List.Chain
import Mathlib.Data.List.Nodup

/-!
# Paths that repeat no node

A path is its list of nodes. The cost of a path is the sum over its steps. A path
whose steps cost at most one is cut, for each cost up to its own, at exactly one
place where a costly step ends.
-/

namespace Fynd.Foundation

open List

variable {V : Type}

/-! ## The cost of a path -/

/-- The costs of the steps of a path together. -/
def pathCost (cost : V → V → Nat) : List V → Nat
  | [] => 0
  | [_] => 0
  | first :: second :: rest => cost first second + pathCost cost (second :: rest)

variable {cost : V → V → Nat}

theorem pathCost_append (front : List V) (node : V) (back : List V) :
    pathCost cost (front ++ node :: back) =
      pathCost cost (front ++ [node]) + pathCost cost (node :: back) := by
  induction front with
  | nil => simp [pathCost]
  | cons first rest ih =>
    cases rest with
    | nil => simp [pathCost]
    | cons second rest =>
      simp only [cons_append, pathCost] at ih ⊢
      omega

theorem pathCost_snoc (front : List V) (last next : V) :
    pathCost cost (front ++ [last, next]) =
      pathCost cost (front ++ [last]) + cost last next := by
  rw [pathCost_append]
  simp [pathCost]

theorem pathCost_reverse (symmetric : ∀ first second, cost first second = cost second first)
    (path : List V) : pathCost cost path.reverse = pathCost cost path := by
  induction path with
  | nil => rfl
  | cons first rest ih =>
    cases rest with
    | nil => rfl
    | cons second rest =>
      simp only [reverse_cons, append_assoc, cons_append, nil_append, pathCost] at ih ⊢
      rw [pathCost_snoc, ih, symmetric second first]
      omega

/-- The last step of a path costs something. -/
def EndsCostly (cost : V → V → Nat) (path : List V) : Prop :=
  ∃ front last next, path = front ++ [last, next] ∧ 0 < cost last next

theorem exists_costly_cut (atMostOne : ∀ first second, cost first second ≤ 1) {path : List V}
    {amount : Nat} (positive : 0 < amount) (enough : amount ≤ pathCost cost path) :
    ∃ front back, path = front ++ back ∧ EndsCostly cost front ∧ pathCost cost front = amount := by
  induction path using List.reverseRecOn with
  | nil => exact absurd enough (by simp [pathCost]; omega)
  | append_singleton path next ih =>
    by_cases before : amount ≤ pathCost cost path
    · obtain ⟨front, back, rfl, costly, reaches⟩ := ih before
      exact ⟨front, back ++ [next], by simp, costly, reaches⟩
    · rcases eq_nil_or_concat path with rfl | ⟨front, last, rfl⟩
      · exact absurd enough (by simp [pathCost]; omega)
      · rw [concat_eq_append] at before enough ⊢
        rw [append_assoc, singleton_append, pathCost_snoc] at enough
        have step := atMostOne last next
        refine ⟨front ++ [last] ++ [next], [], by simp, ⟨front, last, next, by simp, ?_⟩, ?_⟩
        · omega
        · rw [append_assoc, singleton_append, pathCost_snoc]
          omega

theorem costly_cut_unique {front back front' back' : List V}
    (same : front ++ back = front' ++ back') (costly : EndsCostly cost front)
    (costly' : EndsCostly cost front') (equal : pathCost cost front = pathCost cost front') :
    front = front' ∧ back = back' := by
  have longer : ∀ {short extra : List V}, EndsCostly cost short →
      EndsCostly cost (short ++ extra) → pathCost cost short = pathCost cost (short ++ extra) →
        extra = [] := by
    intro short extra ⟨early, last, next, shape, _⟩ ⟨late, last', next', shape', positive⟩ level
    rcases eq_nil_or_concat extra with none | ⟨init, end_, rfl⟩
    · exact none
    · rw [concat_eq_append] at shape' level
      have middle : short ++ init = late ++ [last'] := by
        have := congrArg List.dropLast shape'
        simpa using this
      have ending : end_ = next' := by
        have := congrArg List.getLast? shape'
        simpa using this
      have total : pathCost cost (short ++ (init ++ [end_])) =
          pathCost cost (short ++ init) + cost last' next' := by
        rw [shape', pathCost_snoc, middle]
      have least : pathCost cost short ≤ pathCost cost (short ++ init) := by
        rw [shape, append_assoc, cons_append, singleton_append,
          show early ++ last :: next :: init = (early ++ [last]) ++ next :: init by simp,
          pathCost_append (early ++ [last]) next init, append_assoc, singleton_append]
        omega
      omega
  rcases append_eq_append_iff.mp same with ⟨extra, rfl, rfl⟩ | ⟨extra, rfl, rfl⟩
  · obtain rfl := longer costly costly' equal
    simp
  · obtain rfl := longer costly' costly equal.symm
    simp

theorem exists_free_step {path : List V} (more : pathCost cost path + 1 < path.length) :
    ∃ front first second back, path = front ++ first :: second :: back ∧
      cost first second = 0 := by
  induction path with
  | nil => simp at more
  | cons first rest ih =>
    cases rest with
    | nil => simp [pathCost] at more
    | cons second rest =>
      by_cases free : cost first second = 0
      · exact ⟨[], first, second, rest, rfl, free⟩
      · simp only [pathCost, length_cons] at more
        obtain ⟨front, before, after, back, shape, free⟩ := ih (by
          rw [length_cons]
          omega)
        exact ⟨first :: front, before, after, back, by rw [shape, cons_append], free⟩

theorem length_le_of_one_free_pair
    (onePair : ∀ first second before after, cost first second = 0 → cost before after = 0 →
      after = first ∨ after = second) {path : List V} (nodup : path.Nodup) :
    path.length ≤ pathCost cost path + 2 := by
  induction path using List.reverseRecOn with
  | nil => simp
  | append_singleton path next ih =>
    obtain ⟨early, -, apart⟩ := nodup_append.mp nodup
    rcases eq_nil_or_concat path with rfl | ⟨front, last, rfl⟩
    · simp
    · rw [concat_eq_append] at early apart ih ⊢
      have bound := ih early
      rw [append_assoc, singleton_append, pathCost_snoc]
      simp only [length_append, length_cons, length_nil] at bound ⊢
      by_cases free : cost last next = 0
      · by_cases more : pathCost cost (front ++ [last]) + 1 < (front ++ [last]).length
        · obtain ⟨prior, first, second, back, shape, free'⟩ := exists_free_step more
          have again : next ∈ front ++ [last] := by
            rw [shape]
            rcases onePair first second last next free' free with rfl | rfl <;> simp
          exact absurd rfl (apart next again next (by simp))
        · simp only [length_append, length_cons, length_nil] at more
          omega
      · omega

theorem nodup_flatMap_of_origin {A B : Type} {items : List A} {make : A → List B}
    (nodup : items.Nodup) (each : ∀ item ∈ items, (make item).Nodup)
    (origin : ∀ first ∈ items, ∀ second ∈ items, ∀ made, made ∈ make first →
      made ∈ make second → first = second) : (items.flatMap make).Nodup := by
  refine nodup_flatMap.mpr ⟨each, ?_⟩
  refine nodup.imp_of_mem fun first second differ => ?_
  exact fun made here there => differ (origin _ first _ second made here there)

/-! ## Simple paths -/

/-- A path from a node along links, through allowed nodes, none of them twice. -/
structure SimplePath (link : V → V → Prop) (allowed : V → Prop) (start : V) (path : List V) :
    Prop where
  starts : path.head? = some start
  nodup : path.Nodup
  linked : path.IsChain link
  allowed : ∀ node ∈ path, allowed node

namespace SimplePath

variable {link : V → V → Prop} {allowed : V → Prop} {start : V}

theorem single (free : allowed start) : SimplePath link allowed start [start] :=
  ⟨rfl, nodup_singleton _, isChain_singleton _, by simpa using free⟩

section

variable {path : List V} (simple : SimplePath link allowed start path)
include simple

theorem start_mem : start ∈ path :=
  mem_of_mem_head? simple.starts

theorem exists_snoc : ∃ front last, path = front ++ [last] := by
  rcases eq_nil_or_concat path with rfl | ⟨front, last, rfl⟩
  · cases simple.starts
  · exact ⟨front, last, concat_eq_append⟩

theorem eq_single_or_snoc : path = [start] ∨ ∃ front last next, path = front ++ [last, next] := by
  rcases eq_nil_or_concat path with rfl | ⟨front, next, rfl⟩
  · cases simple.starts
  · rcases eq_nil_or_concat front with rfl | ⟨front, last, rfl⟩
    · left
      simpa using simple.starts
    · exact .inr ⟨front, last, next, by simp⟩

end

theorem append_iff {front back : List V} {node : V} :
    SimplePath link allowed start (front ++ node :: back) ↔
      SimplePath link allowed start (front ++ [node]) ∧
        SimplePath link allowed node (node :: back) ∧ ∀ other ∈ front, other ∉ back := by
  have shape : front ++ node :: back = (front ++ [node]) ++ back := by simp
  refine ⟨fun ⟨starts, nodup, linked, free⟩ => ⟨⟨?_, ?_, (isChain_split.mp linked).1, ?_⟩,
      ⟨rfl, ?_, (isChain_split.mp linked).2, ?_⟩, ?_⟩,
    fun ⟨⟨starts, nodup, linked, free⟩, ⟨_, nodup', linked', free'⟩, apart⟩ =>
      ⟨?_, ?_, isChain_split.mpr ⟨linked, linked'⟩, ?_⟩⟩
  · cases front <;> simpa using starts
  · rw [shape] at nodup
    exact (nodup_append.mp nodup).1
  · exact fun other member => free other (shape ▸ mem_append_left _ member)
  · exact (nodup_append.mp nodup).2.1
  · exact fun other member => free other (mem_append_right _ member)
  · exact fun other member again =>
      (nodup_append.mp nodup).2.2 other member other (mem_cons_of_mem _ again) rfl
  · cases front <;> simpa using starts
  · refine nodup_append.mpr ⟨(nodup_append.mp nodup).1, nodup', ?_⟩
    intro other member again later same
    subst same
    rcases mem_cons.mp later with rfl | later
    · exact (nodup_append.mp nodup).2.2 other member other (by simp) rfl
    · exact apart other member later
  · intro other member
    rcases mem_append.mp member with early | late
    · exact free other (mem_append_left _ early)
    · exact free' other late

theorem snoc_iff {front : List V} {last next : V} :
    SimplePath link allowed start (front ++ [last, next]) ↔
      SimplePath link allowed start (front ++ [last]) ∧ next ∉ front ++ [last] ∧
        allowed next ∧ link last next := by
  rw [append_iff]
  refine and_congr_right fun early => ⟨fun ⟨step, apart⟩ => ?_, fun ⟨fresh, free, step⟩ => ?_⟩
  · refine ⟨fun again => ?_, step.allowed next (by simp), by simpa using step.linked⟩
    rcases mem_append.mp again with before | same
    · exact apart next before (by simp)
    · exact nodup_cons.mp step.nodup |>.1 (by simpa [eq_comm] using same)
  · have known := early.allowed last (by simp)
    refine ⟨⟨rfl, ?_, by simpa using step, by simpa using ⟨known, free⟩⟩, ?_⟩
    · simpa using fun same => fresh (by simp [same])
    · exact fun other member final => fresh (by simp_all)

/-- A simple path can be walked back where its links go the other way too. -/
theorem reverse {path : List V} {finish : V} (simple : SimplePath link allowed start path)
    (turned : path.reverse.IsChain link) (ends : path.getLast? = some finish) :
    SimplePath link allowed finish path.reverse where
  starts := by rw [head?_reverse, ends]
  nodup := nodup_reverse.mpr simple.nodup
  linked := turned
  allowed := fun node member => simple.allowed node (mem_reverse.mp member)

end SimplePath

end Fynd.Foundation
