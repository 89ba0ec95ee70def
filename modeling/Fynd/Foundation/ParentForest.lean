import Mathlib.Data.List.Nodup
import Mathlib.Logic.Function.Basic

/-!
# Forests held as labelled parent pointers

A map sends a node to its parent and the label of the hop between them. The map
is rooted when the root has no parent and every node with a parent descends from
the root. Rewriting the parent of one node keeps the map rooted exactly when the
new parent does not hang below that node, and the chains afterwards are the old
ones with one prefix exchanged.
-/

namespace Fynd.Foundation

open List

variable {Node Label : Type*}

/-- The hops, in order of travel, by which a node descends from `start`. -/
inductive Descends (parent : Node → Option (Node × Label)) (start : Node) :
    Node → List (Node × Node × Label) → Prop
  | refl : Descends parent start start []
  | snoc {before node : Node} {label : Label} {hops : List (Node × Node × Label)} :
      Descends parent start before hops → parent node = some (before, label) →
        Descends parent start node (hops ++ [(before, node, label)])

variable {parent : Node → Option (Node × Label)} {start node : Node}
  {hops : List (Node × Node × Label)}

variable (start hops) in
/-- The nodes a hop list passes, its start included. -/
def nodesFrom : List Node :=
  start :: hops.map fun hop => hop.2.1

@[simp] theorem mem_nodesFrom :
    node ∈ nodesFrom start hops ↔ node = start ∨ ∃ hop ∈ hops, hop.2.1 = node := by
  simp [nodesFrom]

variable (start hops) in
theorem nodesFrom_append_singleton (hop : Node × Node × Label) :
    nodesFrom start (hops ++ [hop]) = nodesFrom start hops ++ [hop.2.1] := by
  simp [nodesFrom]

namespace Descends

variable {parent : Node → Option (Node × Label)} {root start middle node : Node}
  {hops above below : List (Node × Node × Label)}

private theorem trans (upper : Descends parent start middle above)
    (lower : Descends parent middle node below) : Descends parent start node (above ++ below) := by
  induction lower with
  | refl => simpa using upper
  | snoc _ step ih =>
    rw [← append_assoc]
    exact .snoc ih step

section

variable (descent : Descends parent start node hops)
include descent

theorem eq_nil_or_parent : (node = start ∧ hops = []) ∨ ∃ before label shorter,
      Descends parent start before shorter ∧ parent node = some (before, label) ∧
        hops = shorter ++ [(before, node, label)] := by
  cases descent with
  | refl => exact .inl ⟨rfl, rfl⟩
  | snoc shorter step => exact .inr ⟨_, _, _, shorter, step, rfl⟩

/-- A node on the way splits the hops there. -/
theorem split (passed : middle ∈ nodesFrom start hops) :
    ∃ above below, hops = above ++ below ∧ Descends parent start middle above ∧
      Descends parent middle node below := by
  induction descent with
  | refl =>
    have same : middle = start := by simpa using passed
    subst same
    exact ⟨[], [], rfl, .refl, .refl⟩
  | @snoc before last label shorter descent step ih =>
    by_cases earlier : middle ∈ nodesFrom start shorter
    · obtain ⟨above, below, joined, upper, lower⟩ := ih earlier
      refine ⟨above, below ++ [(before, last, label)], ?_, upper, .snoc lower step⟩
      rw [joined, append_assoc]
    · have same : middle = last := by
        simp only [mem_nodesFrom, mem_append, mem_singleton, not_or] at passed earlier
        obtain start | ⟨hop, old | rfl, named⟩ := passed
        · exact (earlier.1 start).elim
        · exact (earlier.2 ⟨hop, old, named⟩).elim
        · exact named.symm
      subst same
      exact ⟨_, [], (append_nil _).symm, .snoc descent step, .refl⟩

theorem end_mem : node ∈ nodesFrom start hops := by
  cases descent with
  | refl => simp
  | snoc => simp

theorem parent_of_mem : ∀ hop ∈ hops, parent hop.2.1 = some (hop.1, hop.2.2) := by
  induction descent with
  | refl => simp
  | snoc _ step ih =>
    intro hop member
    obtain old | new := mem_append.mp member
    · exact ih hop old
    · obtain rfl := mem_singleton.mp new
      exact step

end

/-- Hops from a node without a parent are determined by where they end. -/
theorem unique (free : parent root = none) (first : Descends parent root node above)
    (second : Descends parent root node below) : above = below := by
  induction first generalizing below with
  | refl =>
    obtain ⟨-, empty⟩ | ⟨_, _, _, _, step, _⟩ := second.eq_nil_or_parent
    · exact empty.symm
    · simp [free] at step
  | @snoc before last label shorter descent step ih =>
    obtain ⟨same, -⟩ | ⟨other, otherLabel, otherHops, otherDescent, otherStep, joined⟩ :=
      second.eq_nil_or_parent
    · subst same
      simp [free] at step
    · obtain ⟨rfl, rfl⟩ : before = other ∧ label = otherLabel := by
        simpa [step] using otherStep
      rw [joined, ih otherDescent]

/-- The chain of a node passes every node it descends from. -/
theorem passes (free : parent root = none) (upper : Descends parent root node above)
    (lower : Descends parent start node below) : start ∈ nodesFrom root above := by
  induction lower generalizing above with
  | refl => exact upper.end_mem
  | snoc _ step ih =>
    obtain ⟨rfl, -⟩ | ⟨_, _, shorter, descent, pointer, rfl⟩ := upper.eq_nil_or_parent
    · simp [free] at step
    · obtain ⟨rfl, rfl⟩ : _ ∧ _ := by simpa [step] using pointer
      have passed := ih descent
      simp only [mem_nodesFrom, mem_append] at passed ⊢
      exact passed.imp_right fun ⟨hop, member, named⟩ => ⟨hop, .inl member, named⟩

/-- Hops from a node without a parent pass no node twice. -/
theorem nodup (free : parent root = none) (descent : Descends parent root node hops) :
    (nodesFrom root hops).Nodup := by
  induction descent with
  | refl => simp [nodesFrom]
  | @snoc before last label shorter descent step ih =>
    have fresh : last ∉ nodesFrom root shorter := by
      intro passed
      obtain ⟨above, below, joined, upper, -⟩ := descent.split passed
      have again := unique free upper (.snoc descent step)
      have lengths := congrArg List.length again
      simp [joined] at lengths
    rw [nodesFrom_append_singleton]
    refine nodup_append.mpr ⟨ih, by simp, ?_⟩
    rintro passed member other single rfl
    obtain rfl : passed = last := mem_singleton.mp single
    exact fresh member

end Descends

/-- Hops that follow one another from one node to another. -/
def Chained : Node → List (Node × Node × Label) → Node → Prop
  | start, [], finish => start = finish
  | start, hop :: rest, finish => hop.1 = start ∧ Chained hop.2.1 rest finish

private theorem Chained.append_singleton {start middle : Node} (chained : Chained start hops middle)
    (finish : Node) (label : Label) : Chained start (hops ++ [(middle, finish, label)]) finish := by
  induction hops generalizing start with
  | nil => exact ⟨chained.symm, rfl⟩
  | cons hop rest ih => exact ⟨chained.1, ih chained.2⟩

/-- The hops of a node lead to it from where they start. -/
theorem Descends.chained (descent : Descends parent start node hops) : Chained start hops node := by
  induction descent with
  | refl => exact rfl
  | snoc _ _ ih => exact ih.append_singleton _ _

/-- The root has no parent and every node with a parent descends from it. -/
structure Rooted (parent : Node → Option (Node × Label)) (root : Node) : Prop where
  free : parent root = none
  descends : ∀ node, (parent node).isSome → ∃ hops, Descends parent root node hops

namespace Rooted

variable {parent : Node → Option (Node × Label)} {root start node : Node}
  {hops below : List (Node × Node × Label)}

/-- A map without pointers is rooted anywhere. -/
theorem empty (root : Node) : Rooted (fun _ => none : Node → Option (Node × Label)) root :=
  ⟨rfl, by simp⟩

theorem nodup_of_descends (rooted : Rooted parent root)
    (descent : Descends parent start node below) : (nodesFrom start below).Nodup := by
  cases pointer : parent start with
  | none => exact descent.nodup pointer
  | some _ =>
    obtain ⟨above, upper⟩ := rooted.descends start (by simp [pointer])
    have distinct := (upper.trans descent).nodup rooted.free
    have split : nodesFrom root (above ++ below) =
        nodesFrom root above ++ below.map fun hop => hop.2.1 := by simp [nodesFrom]
    rw [split] at distinct
    obtain ⟨-, entered, apart⟩ := nodup_append.mp distinct
    exact nodup_cons.mpr ⟨fun back => apart start upper.end_mem start back rfl, entered⟩

theorem not_entered (rooted : Rooted parent root) (descent : Descends parent start node below) :
    ∀ hop ∈ below, hop.2.1 ≠ start := by
  rintro hop member rfl
  exact (nodup_cons.mp (rooted.nodup_of_descends descent)).1 (mem_map.mpr ⟨hop, member, rfl⟩)

end Rooted

section Reparent

variable [DecidableEq Node] {parent : Node → Option (Node × Label)} {root start node : Node}
  {above hops : List (Node × Node × Label)} {source target : Node} {label : Label}

omit [DecidableEq Node] in
/-- Hops only depend on the pointers of the nodes they enter. -/
theorem Descends.congr {other : Node → Option (Node × Label)}
    (same : ∀ hop ∈ hops, other hop.2.1 = parent hop.2.1)
    (descent : Descends parent start node hops) : Descends other start node hops := by
  induction descent with
  | refl => exact .refl
  | @snoc before last label shorter descent step ih =>
    refine .snoc (ih fun hop member => same hop (mem_append_left _ member)) ?_
    rw [same (before, last, label) (by simp)]
    exact step

private theorem Descends.update_iff (pointer : Option (Node × Label))
    (avoids : ∀ hop ∈ hops, hop.2.1 ≠ target) :
    Descends (Function.update parent target pointer) start node hops ↔
      Descends parent start node hops := by
  have same : ∀ hop ∈ hops, Function.update parent target pointer hop.2.1 = parent hop.2.1 :=
    fun hop member => Function.update_of_ne (avoids hop member) _ _
  exact ⟨Descends.congr fun hop member => (same hop member).symm, Descends.congr same⟩

variable (rooted : Rooted parent root) (upper : Descends parent root source above)
  (fresh : target ∉ nodesFrom root above)
include rooted upper fresh

/-- **Chains after a rewrite.** When `target` is hung below `source`, a chain that
avoids `target` is kept, and a chain through it exchanges its part above `target`
for the chain of `source`. -/
theorem Rooted.update_descends_iff :
    Descends (Function.update parent target (some (source, label))) root node hops ↔
      (Descends parent root node hops ∧ target ∉ nodesFrom root hops) ∨
        ∃ below, Descends parent target node below ∧
          hops = above ++ (source, target, label) :: below := by
  have notRoot : target ≠ root := fun same => fresh (by simp [same])
  have aboveAvoids : ∀ hop ∈ above, hop.2.1 ≠ target := fun hop member same =>
    fresh (mem_nodesFrom.mpr (.inr ⟨hop, member, same⟩))
  constructor
  · intro descent
    induction descent with
    | refl =>
      exact .inl ⟨.refl, by simpa [nodesFrom] using notRoot⟩
    | @snoc before last hopLabel shorter descent step ih =>
      by_cases rewritten : last = target
      · subst rewritten
        obtain ⟨rfl, rfl⟩ : source = before ∧ label = hopLabel := by simpa using step
        refine .inr ⟨[], .refl, ?_⟩
        obtain ⟨old, -⟩ | ⟨below, lower, -⟩ := ih
        · rw [old.unique rooted.free upper]
        · exact (fresh (upper.passes rooted.free lower)).elim
      · rw [Function.update_of_ne rewritten] at step
        obtain ⟨old, avoids⟩ | ⟨below, lower, joined⟩ := ih
        · refine .inl ⟨.snoc old step, ?_⟩
          simp only [mem_nodesFrom, mem_append, mem_singleton] at avoids ⊢
          rintro (same | ⟨hop, old | rfl, named⟩)
          · exact notRoot same
          · exact avoids (.inr ⟨hop, old, named⟩)
          · exact rewritten named
        · refine .inr ⟨below ++ [(before, last, hopLabel)], .snoc lower step, ?_⟩
          rw [joined]
          simp
  · rintro (⟨old, avoids⟩ | ⟨below, lower, rfl⟩)
    · exact (Descends.update_iff _ fun hop member same =>
        avoids (mem_nodesFrom.mpr (.inr ⟨hop, member, same⟩))).mpr old
    · have first : Descends (Function.update parent target (some (source, label))) root target
          (above ++ [(source, target, label)]) :=
        .snoc ((Descends.update_iff _ aboveAvoids).mpr upper) (by simp)
      have second := (Descends.update_iff (some (source, label))
        (rooted.not_entered lower)).mpr lower
      have joined := first.trans second
      rwa [append_assoc, singleton_append] at joined

/-- Hanging a node below one that does not descend from it keeps the map rooted. -/
theorem Rooted.update : Rooted (Function.update parent target (some (source, label))) root := by
  have notRoot : root ≠ target := fun same => fresh (by simp [same])
  refine ⟨by rw [Function.update_of_ne notRoot, rooted.free], fun node pointed => ?_⟩
  by_cases rewritten : node = target
  · subst rewritten
    exact ⟨_, (rooted.update_descends_iff upper fresh).mpr (.inr ⟨[], .refl, rfl⟩)⟩
  · rw [Function.update_of_ne rewritten] at pointed
    obtain ⟨hops, descent⟩ := rooted.descends node pointed
    by_cases passed : target ∈ nodesFrom root hops
    · obtain ⟨_, below, -, -, lower⟩ := descent.split passed
      exact ⟨_, (rooted.update_descends_iff upper fresh).mpr (.inr ⟨below, lower, rfl⟩)⟩
    · exact ⟨hops, (rooted.update_descends_iff upper fresh).mpr (.inl ⟨descent, passed⟩)⟩

end Reparent

end Fynd.Foundation
