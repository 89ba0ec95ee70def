import Mathlib.Algebra.BigOperators.Group.Finset.Basic
import Mathlib.Algebra.Order.BigOperators.Group.Finset
import Mathlib.Algebra.Order.BigOperators.Ring.Finset
import Mathlib.Algebra.Order.Field.Basic
import Mathlib.Algebra.Order.Ring.Nat
import Mathlib.Data.Finset.Lattice.Fold
import Mathlib.Logic.Relation
import Mathlib.Tactic.FieldSimp
import Mathlib.Tactic.Linarith

/-!
# Networks of converters

Edges take an amount from one node and give an amount to another. A network records
what every edge takes and gives when nothing is lost. When an edge gives less, the
edges after it take the same part of a smaller balance, and give less in turn.

The prices of a network say what a unit at a node is worth at the sink: a node's worth
is spread over its balance, and the worth of an edge is what it gives at the price of its
target. Where no edge gives less than in proportion, the sink loses at most what is
withheld along the way, at these prices (`Network.inflow_sink_le`).
-/

namespace Fynd.Foundation

open Finset

/-! ## Ranks of an acyclic relation -/

theorem exists_rank_of_acyclic {ν : Type*} {leads : ν → ν → Prop} (origins : Finset ν)
    (inside : ∀ u v, leads u v → u ∈ origins) (acyclic : ∀ v, ¬ Relation.TransGen leads v v) :
    ∃ rank : ν → ℕ, ∀ u v, leads u v → rank u < rank v := by
  classical
  refine ⟨fun v => (origins.filter fun u => Relation.TransGen leads u v).card, fun u v edge => ?_⟩
  apply card_lt_card
  refine ssubset_iff_of_subset ?_ |>.mpr ⟨u, ?_, ?_⟩
  · intro w member
    obtain ⟨origin, reaches⟩ := mem_filter.mp member
    exact mem_filter.mpr ⟨origin, reaches.tail edge⟩
  · exact mem_filter.mpr ⟨inside u v edge, .single edge⟩
  · exact fun member => acyclic u (mem_filter.mp member).2

theorem acyclic_of_rank {ν : Type*} {leads : ν → ν → Prop} (rank : ν → ℕ)
    (raises : ∀ u v, leads u v → rank u < rank v) (v : ν) : ¬ Relation.TransGen leads v v := by
  have climbs : ∀ w, Relation.TransGen leads v w → rank v < rank w := by
    intro w reaches
    induction reaches with
    | single edge => exact raises _ _ edge
    | tail _ edge ih => exact ih.trans (raises _ _ edge)
  exact fun cycle => (climbs v cycle).false

/-! ## Converters -/

variable {ι ν K : Type*} [Field K] [LinearOrder K]

/-- A function of a nonnegative amount that gives no less for more, and no less than in
proportion for a part. -/
structure Converter (convert : K → K) : Prop where
  nonneg : ∀ x, 0 ≤ x → 0 ≤ convert x
  mono : ∀ x y, 0 ≤ x → x ≤ y → convert x ≤ convert y
  part : ∀ t x, 0 ≤ t → t ≤ 1 → 0 ≤ x → t * convert x ≤ convert (t * x)

/-- What edges take and give between nodes, and what a node has from elsewhere. -/
structure Network (ι ν K : Type*) [Field K] [LinearOrder K] where
  source : ι → ν
  target : ι → ν
  taken : ι → K
  given : ι → K
  supply : ν → K
  taken_nonneg : ∀ i, 0 ≤ taken i
  given_nonneg : ∀ i, 0 ≤ given i
  supply_nonneg : ∀ v, 0 ≤ supply v

namespace Network

variable [Fintype ι] [DecidableEq ν] (network : Network ι ν K)

/-- What a flow brings to a node. -/
def inflow (flow : ι → K) (v : ν) : K := ∑ i with network.target i = v, flow i

/-- What a node has under a flow. -/
def balance (flow : ι → K) (v : ν) : K := network.supply v + network.inflow flow v

/-- The part of a node's balance that a flow leaves. A node without a balance keeps all of it. -/
def share (flow : ι → K) (v : ν) : K :=
  if network.balance network.given v = 0 then 1
  else network.balance flow v / network.balance network.given v

/-- What an edge takes under a flow: its part of what is left at its source. -/
def received (flow : ι → K) (i : ι) : K :=
  network.taken i * network.share flow (network.source i)

/-- What every edge yields from what it takes under a flow. -/
def advance (yield : ι → K → K) (flow : ι → K) (i : ι) : K := yield i (network.received flow i)

/-- Every edge gives what it yields from what it takes. -/
def Settles (yield : ι → K → K) (flow : ι → K) : Prop :=
  ∀ i, flow i = network.advance yield flow i

/-- The edges lead from lower to higher ranks. -/
def Ranked (rank : ν → ℕ) : Prop := ∀ i, rank (network.source i) < rank (network.target i)

/-- What a unit at a node is worth at the sink. -/
structure Priced (price : ν → K) (sink : ν) : Prop where
  nonneg : ∀ v, 0 ≤ price v
  sink_eq : price sink = 1
  spread : ∀ v, v ≠ sink → price v =
    (∑ i with network.source i = v, network.given i * price (network.target i)) /
      network.balance network.given v

variable {network} {rank : ν → ℕ} {flow : ι → K}

/-! ## Shares -/

private theorem inflow_congr {other : ι → K} {v : ν}
    (same : ∀ i, network.target i = v → flow i = other i) :
    network.inflow flow v = network.inflow other v :=
  sum_congr rfl fun i member => same i (mem_filter.mp member).2

private theorem advance_congr {yield : ι → K → K} {other : ι → K} {i : ι}
    (same : ∀ j, network.target j = network.source i → flow j = other j) :
    network.advance yield flow i = network.advance yield other i := by
  unfold advance received share balance
  rw [inflow_congr same]

private theorem share_eq_one {v : ν}
    (same : network.balance flow v = network.balance network.given v) :
    network.share flow v = 1 := by
  unfold share
  split
  · rfl
  · rename_i balance
    rw [same, div_self balance]

private theorem one_sub_share_mul {v : ν} (balance : network.balance network.given v ≠ 0) :
    (1 - network.share flow v) * network.balance network.given v =
      network.inflow network.given v - network.inflow flow v := by
  unfold share
  rw [if_neg balance, sub_mul, div_mul_cancel₀ _ balance, one_mul]
  unfold Network.balance
  ring

section Order

variable [IsStrictOrderedRing K]

private theorem inflow_nonneg {v : ν} (nonneg : ∀ i, network.target i = v → 0 ≤ flow i) :
    0 ≤ network.inflow flow v :=
  sum_nonneg fun i member => nonneg i (mem_filter.mp member).2

private theorem inflow_mono {other : ι → K} {v : ν}
    (le : ∀ i, network.target i = v → flow i ≤ other i) :
    network.inflow flow v ≤ network.inflow other v :=
  sum_le_sum fun i member => le i (mem_filter.mp member).2

private theorem balance_given_nonneg (v : ν) : 0 ≤ network.balance network.given v :=
  add_nonneg (network.supply_nonneg v) (inflow_nonneg fun i _ => network.given_nonneg i)

theorem share_nonneg {v : ν} (nonneg : ∀ i, network.target i = v → 0 ≤ flow i) :
    0 ≤ network.share flow v := by
  unfold share
  split
  · exact zero_le_one
  · exact div_nonneg (add_nonneg (network.supply_nonneg v) (inflow_nonneg nonneg))
      (balance_given_nonneg v)

theorem share_le_one {v : ν} (le : ∀ i, network.target i = v → flow i ≤ network.given i) :
    network.share flow v ≤ 1 := by
  unfold share
  split
  · exact le_rfl
  · rename_i balance
    rw [div_le_one₀ ((balance_given_nonneg v).lt_of_ne' balance)]
    exact add_le_add_right (inflow_mono le) _

end Order

/-! ## Flows along the ranks -/

section Ranks

variable (ranked : network.Ranked rank)

include ranked

private theorem iterate_advance_stable (yield : ι → K → K) (start : ι → K) (n : ℕ) (i : ι)
    (reached : rank (network.source i) < n) :
    (network.advance yield)^[n + 1] start i = (network.advance yield)^[n] start i := by
  induction n generalizing i with
  | zero => exact absurd reached (Nat.not_lt_zero _)
  | succ n ih =>
    have before : ∀ j, network.target j = network.source i →
        (network.advance yield)^[n + 1] start j = (network.advance yield)^[n] start j := by
      intro j into
      apply ih
      have climbs := ranked j
      rw [into] at climbs
      omega
    calc
      (network.advance yield)^[n + 2] start i =
          network.advance yield ((network.advance yield)^[n + 1] start) i :=
        congrFun (Function.iterate_succ_apply' _ _ _) i
      _ = network.advance yield ((network.advance yield)^[n] start) i := advance_congr before
      _ = (network.advance yield)^[n + 1] start i :=
        (congrFun (Function.iterate_succ_apply' _ _ _) i).symm

/-- A ranked network settles: advancing reaches one rank after the other. -/
theorem exists_settles (yield : ι → K → K) : ∃ flow, network.Settles yield flow := by
  let height := Finset.univ.sup (rank ∘ network.source)
  refine ⟨(network.advance yield)^[height + 1] network.given, fun i => ?_⟩
  have low : (rank ∘ network.source) i ≤ height := le_sup (mem_univ i)
  rw [← Function.iterate_succ_apply' (network.advance yield)]
  exact (iterate_advance_stable ranked yield _ _ i (Nat.lt_succ_of_le low)).symm

theorem share_eq_one_of_below {yield : ι → K → K} (settles : network.Settles yield flow) {bound : ℕ}
    (kept : ∀ i, rank (network.source i) < bound → yield i (network.taken i) = network.given i)
    (v : ν) (low : rank v ≤ bound) : network.share flow v = 1 := by
  induction level : rank v using Nat.strong_induction_on generalizing v with
  | _ level ih =>
    subst level
    apply share_eq_one
    unfold balance
    congr 1
    refine inflow_congr fun i into => ?_
    have climbs : rank (network.source i) < rank v := into ▸ ranked i
    rw [settles i, advance, received, ih _ climbs (network.source i) (by omega) rfl, mul_one]
    exact kept i (by omega)

/-- A flow lies between nothing and what is given if each edge does where its source keeps a share
between zero and one. -/
theorem flow_bounds [IsStrictOrderedRing K]
    (bounded : ∀ i, 0 ≤ network.share flow (network.source i) →
      network.share flow (network.source i) ≤ 1 → 0 ≤ flow i ∧ flow i ≤ network.given i)
    (i : ι) : 0 ≤ flow i ∧ flow i ≤ network.given i := by
  induction level : rank (network.source i) using Nat.strong_induction_on generalizing i with
  | _ level ih =>
    subst level
    have before : ∀ j, network.target j = network.source i →
        0 ≤ flow j ∧ flow j ≤ network.given j := by
      intro j into
      have climbs := ranked j
      rw [into] at climbs
      exact ih _ climbs j rfl
    exact bounded i (share_nonneg fun j into => (before j into).1)
      (share_le_one fun j into => (before j into).2)

end Ranks

/-! ## Prices -/

section Prices

variable {price : ν → K} {sink : ν} (ranked : network.Ranked rank)
  (priced : network.Priced price sink)

include ranked priced

private theorem rank_lt_sink {v : ν} (other : v ≠ sink) (worth : price v ≠ 0) :
    rank v < rank sink := by
  let height := Finset.univ.sup (rank ∘ network.target)
  induction gap : height - rank v using Nat.strong_induction_on generalizing v with
  | _ gap ih =>
    subst gap
    have carried : ∃ i, network.source i = v ∧ price (network.target i) ≠ 0 := by
      by_contra absent
      apply worth
      rw [priced.spread v other, sum_eq_zero, zero_div]
      intro i member
      by_cases zero : price (network.target i) = 0
      · rw [zero, mul_zero]
      · exact absurd ⟨i, (mem_filter.mp member).2, zero⟩ absent
    obtain ⟨i, leaves, next⟩ := carried
    have climbs : rank v < rank (network.target i) := leaves ▸ ranked i
    by_cases last : network.target i = sink
    · rwa [last] at climbs
    · have high : (rank ∘ network.target) i ≤ height := le_sup (mem_univ i)
      simp only [Function.comp_apply] at high
      exact climbs.trans (ih _ (by omega) last next rfl)

private theorem price_target_of_source_sink {i : ι} (leaves : network.source i = sink) :
    price (network.target i) = 0 := by
  by_contra worth
  have climbs : rank sink < rank (network.target i) := leaves ▸ ranked i
  have other : network.target i ≠ sink := by
    intro same
    rw [same] at climbs
    exact climbs.false
  exact (climbs.trans (rank_lt_sink ranked priced other worth)).false

variable [IsStrictOrderedRing K]

omit ranked in
/-- At a node other than the sink, what is taken from the edges after it is worth no more than what
is not brought. -/
theorem worth_taken_le {v : ν} (other : v ≠ sink) (le : ∀ i, flow i ≤ network.given i) :
    ∑ i with network.source i = v,
        network.given i * (1 - network.share flow (network.source i)) * price (network.target i) ≤
      price v * (network.inflow network.given v - network.inflow flow v) := by
  have pulled : ∑ i with network.source i = v,
        network.given i * (1 - network.share flow (network.source i)) * price (network.target i) =
      (1 - network.share flow v) *
        ∑ i with network.source i = v, network.given i * price (network.target i) := by
    rw [mul_sum]
    refine sum_congr rfl fun i member => ?_
    rw [(mem_filter.mp member).2]
    ring
  rw [pulled]
  by_cases empty : network.balance network.given v = 0
  · have kept : network.share flow v = 1 := if_pos empty
    rw [kept, sub_self, zero_mul]
    exact mul_nonneg (priced.nonneg v) (sub_nonneg.mpr (inflow_mono fun i _ => le i))
  · rw [← one_sub_share_mul empty, priced.spread v other]
    apply le_of_eq
    field_simp

omit ranked priced [IsStrictOrderedRing K] in
private theorem price_mul_missing (v : ν) :
    price v * (network.inflow network.given v - network.inflow flow v) =
      ∑ i with network.target i = v, (network.given i - flow i) * price (network.target i) := by
  unfold inflow
  rw [← sum_sub_distrib, mul_sum]
  refine sum_congr rfl fun i member => ?_
  rw [(mem_filter.mp member).2, mul_comm]

/-- **The loss at the sink.** If every edge gives its part of what it gives in full, but for a toll,
the sink misses at most the tolls at the prices of their nodes. -/
theorem inflow_sink_le {toll : ι → K} (le : ∀ i, flow i ≤ network.given i)
    (part : ∀ i, network.given i * network.share flow (network.source i) ≤ flow i + toll i) :
    network.inflow network.given sink ≤
      network.inflow flow sink + ∑ i, toll i * price (network.target i) := by
  let nodes := insert sink (Finset.univ.image network.source ∪ Finset.univ.image network.target)
  let taken : ι → K := fun i =>
    network.given i * (1 - network.share flow (network.source i)) * price (network.target i)
  let missing : ν → K := fun v =>
    price v * (network.inflow network.given v - network.inflow flow v)
  have bySource : ∑ i, taken i = ∑ v ∈ nodes, ∑ i with network.source i = v, taken i :=
    (sum_fiberwise_of_maps_to (fun i _ => mem_insert_of_mem
      (mem_union_left _ (mem_image_of_mem _ (mem_univ i)))) _).symm
  have byTarget : ∑ i, (network.given i - flow i) * price (network.target i) =
      ∑ v ∈ nodes, missing v := by
    rw [sum_congr rfl fun v _ => price_mul_missing v]
    exact (sum_fiberwise_of_maps_to (fun i _ => mem_insert_of_mem
      (mem_union_right _ (mem_image_of_mem _ (mem_univ i)))) _).symm
  have fromSink : ∑ i with network.source i = sink, taken i = 0 := by
    refine sum_eq_zero fun i member => ?_
    change _ * price (network.target i) = 0
    rw [price_target_of_source_sink ranked priced (mem_filter.mp member).2, mul_zero]
  have edges : ∑ i, (network.given i - flow i) * price (network.target i) ≤
      ∑ i, taken i + ∑ i, toll i * price (network.target i) := by
    rw [← sum_add_distrib]
    refine sum_le_sum fun i _ => ?_
    rw [← add_mul]
    refine mul_le_mul_of_nonneg_right ?_ (priced.nonneg _)
    linarith [part i]
  have others : ∑ v ∈ nodes.erase sink, ∑ i with network.source i = v, taken i ≤
      ∑ v ∈ nodes.erase sink, missing v :=
    sum_le_sum fun v member => worth_taken_le priced (ne_of_mem_erase member) le
  have atSink : missing sink = network.inflow network.given sink - network.inflow flow sink := by
    change price sink * _ = _
    rw [priced.sink_eq, one_mul]
  have sink_mem : sink ∈ nodes := mem_insert_self _ _
  rw [bySource, byTarget, ← add_sum_erase _ _ sink_mem, ← add_sum_erase _ _ sink_mem,
    fromSink, atSink] at edges
  linarith

end Prices

end Network

end Fynd.Foundation
