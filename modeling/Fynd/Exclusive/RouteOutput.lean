import Mathlib.Algebra.BigOperators.Fin
import Mathlib.Algebra.BigOperators.Group.List.Basic
import Mathlib.Algebra.Order.BigOperators.Group.List
import Mathlib.Data.Rat.Cast.Order
import Fynd.Exclusive.Commitment
import Fynd.Foundation.ConverterNetwork

/-!
# The worth of a leg's output

On a route without cycles the search behind `legRouteOutput` never meets a token of its
path and never runs out of depth. Where the swaps also use up every token but the output,
the fractions it adds up are the prices of the network that the swaps form: what a token
is worth in the route's output is spread over all that the swaps take of it.
-/

namespace Fynd

open Foundation List

variable {P : Type}

/-! ## Sums of fractions -/

section Fractions

variable {α : Type} {part : α → Option (Nat × Nat)}

/-- Adds the fractions of some items to a sum, in order. None if an item has none. -/
def addFractions (part : α → Option (Nat × Nat)) (items : List α) (start : Nat × Nat) :
    Option (Nat × Nat) :=
  items.foldlM (fun sum item => (part item).map (addFraction sum)) start

/-- The rational number a fraction stands for. -/
def fractionValue (fraction : Nat × Nat) : ℚ := fraction.1 / fraction.2

variable {items : List α} {start result fraction : Nat × Nat}

private theorem fractionValue_of_num_eq_zero (zero : fraction.1 = 0) :
    fractionValue fraction = 0 := by
  unfold fractionValue
  rw [zero, Nat.cast_zero, zero_div]

private theorem addFraction_spec {sum fraction : Nat × Nat} (positive : 0 < sum.2)
    (proper : fraction.1 = 0 ∨ 0 < fraction.2) :
    0 < (addFraction sum fraction).2 ∧
      fractionValue (addFraction sum fraction) = fractionValue sum + fractionValue fraction := by
  unfold addFraction
  split
  · rename_i zero
    rw [fractionValue_of_num_eq_zero zero, add_zero]
    exact ⟨positive, rfl⟩
  · rename_i nonzero
    have divisor := proper.resolve_left nonzero
    refine ⟨Nat.mul_pos positive divisor, ?_⟩
    have sumNonzero : (sum.2 : ℚ) ≠ 0 := Nat.cast_ne_zero.mpr positive.ne'
    have overNonzero : (fraction.2 : ℚ) ≠ 0 := Nat.cast_ne_zero.mpr divisor.ne'
    unfold fractionValue
    push_cast
    rw [div_add_div _ _ sumNonzero overNonzero]
    ring

private theorem addFractions_mono {wider : α → Option (Nat × Nat)}
    (keeps : ∀ item ∈ items, ∀ fraction, part item = some fraction → wider item = some fraction)
    (done : addFractions part items start = some result) :
    addFractions wider items start = some result := by
  induction items generalizing start with
  | nil => exact done
  | cons item rest ih =>
    obtain ⟨sum, here, later⟩ := Option.bind_eq_some_iff.mp done
    obtain ⟨fraction, found, same⟩ := Option.map_eq_some_iff.mp here
    refine Option.bind_eq_some_iff.mpr ⟨sum, Option.map_eq_some_iff.mpr ⟨fraction, ?_, same⟩, ?_⟩
    · exact keeps item mem_cons_self fraction found
    · exact ih (fun other member => keeps other (mem_cons_of_mem _ member)) later

private theorem addFractions_isSome (all : ∀ item ∈ items, (part item).isSome = true) :
    (addFractions part items start).isSome = true := by
  induction items generalizing start with
  | nil => rfl
  | cons item rest ih =>
    obtain ⟨fraction, found⟩ := Option.isSome_iff_exists.mp (all item mem_cons_self)
    change (((part item).map (addFraction start)).bind _).isSome = true
    rw [found]
    exact ih fun other member => all other (mem_cons_of_mem _ member)

/-- A sum of fractions has the sum of their values. -/
theorem addFractions_spec (positive : 0 < start.2)
    (proper : ∀ item ∈ items, ∀ fraction, part item = some fraction →
      fraction.1 = 0 ∨ 0 < fraction.2) (done : addFractions part items start = some result) :
    0 < result.2 ∧ ∀ value : α → ℚ,
      (∀ item ∈ items, ∀ fraction, part item = some fraction →
        fractionValue fraction = value item) →
      fractionValue result = fractionValue start + (items.map value).sum := by
  induction items generalizing start with
  | nil =>
    cases done
    exact ⟨positive, fun _ _ => (add_zero _).symm⟩
  | cons item rest ih =>
    obtain ⟨sum, here, later⟩ := Option.bind_eq_some_iff.mp done
    obtain ⟨fraction, found, same⟩ := Option.map_eq_some_iff.mp here
    cases same
    obtain ⟨positiveSum, valueSum⟩ :=
      addFraction_spec positive (proper item mem_cons_self fraction found)
    obtain ⟨positiveResult, valued⟩ :=
      ih positiveSum (fun other member => proper other (mem_cons_of_mem _ member)) later
    refine ⟨positiveResult, fun value worth => ?_⟩
    rw [valued value fun other member => worth other (mem_cons_of_mem _ member), valueSum,
      worth item mem_cons_self fraction found, map_cons, sum_cons, add_assoc]

end Fractions

/-! ## Routes without cycles -/

section Acyclic

variable {swaps : List (Swap P)} {outputToken : Address}

/-- A swap takes the one token and gives the other. -/
def Leads (swaps : List (Swap P)) (tokenIn tokenOut : Address) : Prop :=
  ∃ swap ∈ swaps, swap.tokenIn = tokenIn ∧ swap.tokenOut = tokenOut

/-- No swaps lead from a token back to it. -/
def Acyclic (swaps : List (Swap P)) : Prop :=
  ∀ token, ¬ Relation.TransGen (Leads swaps) token token

/-- The tokens that swaps take. -/
def tokensIn (swaps : List (Swap P)) : Finset Address :=
  (swaps.map Swap.tokenIn).toFinset

/-- Tokens of an acyclic route can be ranked along its swaps. -/
theorem Acyclic.exists_rank (acyclic : Acyclic swaps) :
    ∃ rank : Address → ℕ, ∀ swap ∈ swaps, rank swap.tokenIn < rank swap.tokenOut := by
  have inside : ∀ tokenIn tokenOut, Leads swaps tokenIn tokenOut → tokenIn ∈ tokensIn swaps := by
    rintro tokenIn tokenOut ⟨swap, member, rfl, rfl⟩
    exact mem_toFinset.mpr (mem_map_of_mem member)
  obtain ⟨rank, raises⟩ := exists_rank_of_acyclic (tokensIn swaps) inside acyclic
  exact ⟨rank, fun swap member => raises _ _ ⟨swap, member, rfl, rfl⟩⟩

/-- What a swap adds to the route output of the token it takes, given the route output of the
tokens after it. -/
def swapRouteOutput (swaps : List (Swap P)) (outputToken : Address)
    (following : Address → Option (Nat × Nat)) (swap : Swap P) : Option (Nat × Nat) :=
  if swap.tokenOut = outputToken then some (swap.amountOut, 1)
  else (following swap.tokenOut).map fun next =>
    (swap.amountOut * next.1, next.2 * totalAmountInForToken swaps swap.tokenOut)

private theorem tokenRouteOutputIn_succ (depth : Nat) (path : List Address) (token : Address) :
    tokenRouteOutputIn swaps outputToken (depth + 1) path token =
      if token ∈ path then none
      else addFractions (swapRouteOutput swaps outputToken
        (tokenRouteOutputIn swaps outputToken depth (token :: path)))
        (swaps.filter fun swap => swap.tokenIn = token) (0, 1) := by
  have step : (fun (sum : Nat × Nat) (swap : Swap P) =>
      if swap.tokenOut = outputToken then some (addFraction sum (swap.amountOut, 1))
      else (tokenRouteOutputIn swaps outputToken depth (token :: path) swap.tokenOut).map
        fun next => addFraction sum
          (swap.amountOut * next.1, next.2 * totalAmountInForToken swaps swap.tokenOut)) =
      fun sum swap => (swapRouteOutput swaps outputToken
        (tokenRouteOutputIn swaps outputToken depth (token :: path)) swap).map
          (addFraction sum) := by
    funext sum swap
    unfold swapRouteOutput
    split
    · rfl
    · rw [Option.map_map]
      rfl
  unfold addFractions
  rw [tokenRouteOutputIn, step]

variable {depth : Nat} {path : List Address} {token : Address} {fraction : Nat × Nat}
  {rank : Address → ℕ} {swap : Swap P}

private theorem swapRouteOutput_mono {following wider : Address → Option (Nat × Nat)}
    (keeps : ∀ next, following swap.tokenOut = some next → wider swap.tokenOut = some next)
    (done : swapRouteOutput swaps outputToken following swap = some fraction) :
    swapRouteOutput swaps outputToken wider swap = some fraction := by
  unfold swapRouteOutput at done ⊢
  split at done
  · rename_i last
    rw [if_pos last]
    exact done
  · rename_i earlier
    obtain ⟨next, found, same⟩ := Option.map_eq_some_iff.mp done
    rw [if_neg earlier, keeps next found]
    exact congrArg some same

private theorem tokenRouteOutputIn_mono {deeper : Nat} {shorter : List Address}
    (deep : depth ≤ deeper) (short : shorter ⊆ path)
    (done : tokenRouteOutputIn swaps outputToken depth path token = some fraction) :
    tokenRouteOutputIn swaps outputToken deeper shorter token = some fraction := by
  induction depth generalizing deeper path shorter token fraction with
  | zero => cases done
  | succ depth ih =>
    obtain ⟨deeper, rfl⟩ := Nat.exists_eq_add_of_lt deep
    rw [tokenRouteOutputIn_succ] at done ⊢
    split at done
    · cases done
    · rename_i fresh
      rw [if_neg fun member => fresh (short member)]
      refine addFractions_mono (fun swap _ fraction found => ?_) done
      refine swapRouteOutput_mono (fun next earlier => ?_) found
      exact ih (by omega) (cons_subset_cons _ short) earlier

/-- How many of the tokens that swaps take rank no lower than a token. -/
def tokensFrom (swaps : List (Swap P)) (rank : Address → ℕ) (token : Address) : ℕ :=
  ((tokensIn swaps).filter fun other => rank token ≤ rank other).card

private theorem tokensFrom_lt (member : swap ∈ swaps)
    (climbs : rank swap.tokenIn < rank swap.tokenOut) :
    tokensFrom swaps rank swap.tokenOut < tokensFrom swaps rank swap.tokenIn := by
  apply Finset.card_lt_card
  refine (Finset.ssubset_iff_of_subset ?_).mpr ⟨swap.tokenIn, ?_, ?_⟩
  · intro other inside
    obtain ⟨taken, high⟩ := Finset.mem_filter.mp inside
    exact Finset.mem_filter.mpr ⟨taken, by omega⟩
  · exact Finset.mem_filter.mpr ⟨mem_toFinset.mpr (mem_map_of_mem member), le_rfl⟩
  · intro inside
    exact absurd (Finset.mem_filter.mp inside).2 (by omega)

private theorem tokenRouteOutputIn_isSome
    (ranked : ∀ swap ∈ swaps, rank swap.tokenIn < rank swap.tokenOut)
    (rises : ∀ other ∈ path, rank other < rank token) (deep : tokensFrom swaps rank token < depth) :
    (tokenRouteOutputIn swaps outputToken depth path token).isSome = true := by
  induction depth generalizing path token with
  | zero => exact absurd deep (Nat.not_lt_zero _)
  | succ depth ih =>
    rw [tokenRouteOutputIn_succ, if_neg fun member => (rises token member).false]
    refine addFractions_isSome fun swap member => ?_
    obtain ⟨inside, takes⟩ := mem_filter.mp member
    obtain rfl : swap.tokenIn = token := by simpa using takes
    have climbs := ranked swap inside
    unfold swapRouteOutput
    split
    · rfl
    · rw [Option.isSome_map]
      apply ih
      · intro other earlier
        rcases mem_cons.mp earlier with rfl | earlier
        · exact climbs
        · exact (rises other earlier).trans climbs
      · have fewer := tokensFrom_lt inside climbs
        omega

/-- **The search returns.** On a route without cycles every token has a route output, and it is the
sum of what the swaps taking the token add to it. -/
theorem tokenRouteOutput_eq (acyclic : Acyclic swaps) (outputToken token : Address) :
    ∃ fraction, tokenRouteOutput swaps token outputToken [] = some fraction ∧
      addFractions (swapRouteOutput swaps outputToken
        fun next => tokenRouteOutput swaps next outputToken [])
        (swaps.filter fun swap => swap.tokenIn = token) (0, 1) = some fraction := by
  obtain ⟨rank, ranked⟩ := acyclic.exists_rank
  have deep : tokensFrom swaps rank token < swaps.length + 1 := by
    apply Nat.lt_succ_of_le
    calc
      tokensFrom swaps rank token ≤ (tokensIn swaps).card :=
        Finset.card_le_card (Finset.filter_subset _ _)
      _ ≤ (swaps.map Swap.tokenIn).length := toFinset_card_le _
      _ = swaps.length := length_map _
  have returns : (tokenRouteOutput swaps token outputToken []).isSome = true :=
    tokenRouteOutputIn_isSome ranked (fun _ member => nomatch member) deep
  obtain ⟨fraction, found⟩ := Option.isSome_iff_exists.mp returns
  refine ⟨fraction, found, ?_⟩
  unfold tokenRouteOutput at found
  rw [tokenRouteOutputIn_succ, if_neg not_mem_nil] at found
  refine addFractions_mono (fun swap _ part here => ?_) found
  refine swapRouteOutput_mono (fun next later => ?_) here
  exact tokenRouteOutputIn_mono (Nat.le_succ _) (nil_subset _) later

end Acyclic

/-! ## The network of a route -/

section Network

/-- The swaps as a network between tokens, with what the user brings. -/
def swapNetwork (swaps : List (Swap P)) (supply : Address → Nat) :
    Network (Fin swaps.length) Address ℚ where
  source i := (swaps.get i).tokenIn
  target i := (swaps.get i).tokenOut
  taken i := (swaps.get i).amountIn
  given i := (swaps.get i).amountOut
  supply token := supply token
  taken_nonneg _ := Nat.cast_nonneg _
  given_nonneg _ := Nat.cast_nonneg _
  supply_nonneg _ := Nat.cast_nonneg _

/-- The swaps take of every token but the output all that the user brings and that swaps produce.
Of an intermediate token the user brings nothing. -/
def Balanced (route : Route P) (supply : Address → Nat) (outputToken : Address) : Prop :=
  ∀ token, token ≠ outputToken →
    totalAmountInForToken route.swaps token = supply token + route.amountOut token

/-- What a unit of a token is worth in the route's output: the token's route output, spread over
what the swaps take of it. -/
def tokenPrice (swaps : List (Swap P)) (outputToken token : Address) : ℚ :=
  if token = outputToken then 1
  else (tokenRouteOutput swaps token outputToken []).elim 0 fractionValue /
    totalAmountInForToken swaps token

theorem sum_get_filter {α : Type} (items : List α) (chosen : α → Prop) [DecidablePred chosen]
    (value : α → ℚ) :
    ∑ i : Fin items.length with chosen (items.get i), value (items.get i) =
      ((items.filter fun item => chosen item).map value).sum := by
  have all := Fin.sum_univ_fun_getElem items fun item => if chosen item then value item else 0
  rw [sum_map_ite, map_const', sum_replicate, nsmul_zero, add_zero] at all
  rw [Finset.sum_filter, ← all]
  rfl

variable {route : Route P} {supply : Address → Nat} {outputToken : Address}

theorem inflow_given (token : Address) :
    (swapNetwork route.swaps supply).inflow (swapNetwork route.swaps supply).given token =
      route.amountOut token := by
  unfold Route.amountOut
  rw [Nat.cast_list_sum, map_map]
  exact sum_get_filter route.swaps (fun swap => swap.tokenOut = token) fun swap => swap.amountOut

theorem swapNetwork_ranked (supply : Address → Nat) {rank : Address → ℕ}
    (ranked : ∀ swap ∈ route.swaps, rank swap.tokenIn < rank swap.tokenOut) :
    (swapNetwork route.swaps supply).Ranked rank :=
  fun i => ranked _ (get_mem _ i)

variable {swap : Swap P} {fraction : Nat × Nat}

private theorem swapRouteOutput_value
    (done : swapRouteOutput route.swaps outputToken (fun next => tokenRouteOutput route.swaps next
      outputToken []) swap = some fraction) :
    fractionValue fraction =
      swap.amountOut * tokenPrice route.swaps outputToken swap.tokenOut := by
  unfold swapRouteOutput at done
  unfold tokenPrice
  split at done
  · rename_i last
    cases done
    rw [if_pos last, mul_one]
    unfold fractionValue
    rw [Nat.cast_one, div_one]
  · rename_i earlier
    obtain ⟨next, found, same⟩ := Option.map_eq_some_iff.mp done
    subst same
    beta_reduce at found
    rw [if_neg earlier, found, Option.elim_some]
    unfold fractionValue
    push_cast
    rw [mul_div_assoc, ← div_div]

variable (balanced : Balanced route supply outputToken)

include balanced

private theorem totalAmountIn_pos (member : swap ∈ route.swaps)
    (earlier : swap.tokenOut ≠ outputToken) (pays : 0 < swap.amountOut) :
    0 < totalAmountInForToken route.swaps swap.tokenOut := by
  have produced : swap.amountOut ≤ route.amountOut swap.tokenOut := by
    apply le_sum_of_mem
    exact mem_map_of_mem (mem_filter.mpr ⟨member, by simp⟩)
  rw [balanced _ earlier]
  omega

private theorem swapRouteOutput_proper {following : Address → Option (Nat × Nat)}
    (proper : ∀ token fraction, following token = some fraction → 0 < fraction.2)
    (member : swap ∈ route.swaps)
    (done : swapRouteOutput route.swaps outputToken following swap = some fraction) :
    fraction.1 = 0 ∨ 0 < fraction.2 := by
  unfold swapRouteOutput at done
  split at done
  · cases done
    exact .inr Nat.one_pos
  · rename_i earlier
    obtain ⟨next, found, same⟩ := Option.map_eq_some_iff.mp done
    subst same
    rcases Nat.eq_zero_or_pos swap.amountOut with zero | pays
    · exact .inl (by rw [zero, Nat.zero_mul])
    · exact .inr (Nat.mul_pos (proper _ _ found) (totalAmountIn_pos balanced member earlier pays))

private theorem tokenRouteOutputIn_proper {depth : Nat} {path : List Address} {token : Address}
    (done : tokenRouteOutputIn route.swaps outputToken depth path token = some fraction) :
    0 < fraction.2 := by
  induction depth generalizing path token fraction with
  | zero => cases done
  | succ depth ih =>
    rw [tokenRouteOutputIn_succ] at done
    split at done
    · cases done
    · exact (addFractions_spec Nat.one_pos (fun swap member _ => swapRouteOutput_proper balanced
        (fun _ _ => ih) (mem_of_mem_filter member)) done).1

/-- **The prices of a route.** On a balanced route without cycles the route outputs of its tokens
are prices of the network its swaps form. -/
theorem swapNetwork_priced (acyclic : Acyclic route.swaps) :
    (swapNetwork route.swaps supply).Priced (tokenPrice route.swaps outputToken) outputToken where
  nonneg token := by
    unfold tokenPrice
    split
    · exact zero_le_one
    · refine div_nonneg ?_ (Nat.cast_nonneg _)
      cases tokenRouteOutput route.swaps token outputToken [] with
      | none => exact le_rfl
      | some fraction => exact div_nonneg (Nat.cast_nonneg _) (Nat.cast_nonneg _)
  sink_eq := if_pos rfl
  spread token earlier := by
    obtain ⟨fraction, found, parts⟩ := tokenRouteOutput_eq acyclic outputToken token
    have worth := (addFractions_spec Nat.one_pos (fun swap member _ =>
      swapRouteOutput_proper balanced (fun _ _ => tokenRouteOutputIn_proper balanced)
        (mem_of_mem_filter member)) parts).2 _ fun swap _ _ => swapRouteOutput_value
    have available : (swapNetwork route.swaps supply).balance
        (swapNetwork route.swaps supply).given token =
          totalAmountInForToken route.swaps token := by
      unfold Network.balance
      rw [inflow_given, balanced token earlier, Nat.cast_add]
      rfl
    rw [available]
    unfold tokenPrice
    rw [if_neg earlier, found, Option.elim_some, worth, fractionValue_of_num_eq_zero rfl, zero_add]
    congr 1
    exact (sum_get_filter route.swaps (fun swap => swap.tokenIn = token) fun swap =>
      swap.amountOut * tokenPrice route.swaps outputToken swap.tokenOut).symm

/-- The route output of a leg is its output at the price of the token. -/
theorem legRouteOutput_value {leg : Swap P} (member : leg ∈ route.swaps)
    {numerator denominator : Nat}
    (found : legRouteOutput route.swaps leg outputToken = some (numerator, denominator))
    (reaches : 0 < numerator) :
    0 < denominator ∧ (numerator / denominator : ℚ) =
      leg.amountOut * tokenPrice route.swaps outputToken leg.tokenOut := by
  have asSwap : swapRouteOutput route.swaps outputToken
      (fun next => tokenRouteOutput route.swaps next outputToken []) leg =
        some (numerator, denominator) := by
    unfold legRouteOutput at found
    unfold swapRouteOutput
    split at found
    · rename_i last
      rw [if_pos last]
      exact found
    · rename_i earlier
      rw [if_neg earlier]
      dsimp only at found
      split at found
      · cases found
        exact absurd reaches (Nat.lt_irrefl _)
      · exact found
  refine ⟨?_, swapRouteOutput_value asSwap⟩
  exact (swapRouteOutput_proper balanced (fun _ _ => tokenRouteOutputIn_proper balanced) member
    asSwap).resolve_left reaches.ne'

end Network

end Fynd
