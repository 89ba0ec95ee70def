import Mathlib.Algebra.BigOperators.Group.List.Basic
import Mathlib.Algebra.GroupWithZero.Nat
import Fynd.Foundation.DependencyOrder

/-!
# Tokens that flow through items

Items take one token and pay another, and wait until nothing that pays their token is left
to run. In every such run each item runs once, producers come first, and what was taken and
what is left of a token add up to what it started with and what was paid into it.
-/

namespace Fynd.Foundation

open List

variable {Item Token : Type}

/-- An item that ran, with what it took and what it paid. -/
structure Fired (Item : Type) where
  item : Item
  taken : Nat
  paid : Nat

/-- What ran, what is left to run, and what stands at each token. -/
structure Flow (Item Token : Type) where
  ran : List (Fired Item)
  pending : List Item
  balance : Token → Nat

section Sums

variable [DecidableEq Token]

variable {tokenIn : Item → Token} {ran : List (Fired Item)} {fired : Fired Item} {token : Token}
  {tokenOut : Item → Token}

variable (tokenIn ran token) in
/-- What was taken of a token. -/
def takenFrom : Nat :=
  ((ran.filter fun fired => tokenIn fired.item = token).map Fired.taken).sum

/-- What was paid into a token. -/
def paidTo (tokenOut : Item → Token) (ran : List (Fired Item)) (token : Token) : Nat :=
  ((ran.filter fun fired => tokenOut fired.item = token).map Fired.paid).sum

variable (tokenIn ran fired token) in
private theorem takenFrom_concat :
    takenFrom tokenIn (ran ++ [fired]) token =
      takenFrom tokenIn ran token + if tokenIn fired.item = token then fired.taken else 0 := by
  rw [takenFrom, filter_append, map_append, sum_append, takenFrom]
  by_cases here : tokenIn fired.item = token <;> simp [here]

private theorem paidTo_concat (tokenOut : Item → Token) (ran : List (Fired Item))
    (fired : Fired Item) (token : Token) :
    paidTo tokenOut (ran ++ [fired]) token =
      paidTo tokenOut ran token + if tokenOut fired.item = token then fired.paid else 0 := by
  rw [paidTo, filter_append, map_append, sum_append, paidTo]
  by_cases here : tokenOut fired.item = token <;> simp [here]

theorem takenFrom_eq_zero
    (untaken : ∀ fired ∈ ran, tokenIn fired.item ≠ token) : takenFrom tokenIn ran token = 0 := by
  rw [takenFrom, filter_eq_nil_iff.mpr (by simpa using untaken)]
  rfl

theorem paidTo_eq_zero
    (unpaid : ∀ fired ∈ ran, tokenOut fired.item ≠ token) : paidTo tokenOut ran token = 0 := by
  rw [paidTo, filter_eq_nil_iff.mpr (by simpa using unpaid)]
  rfl

end Sums

namespace Flow

variable {tokenIn tokenOut : Item → Token} {initial : Token → Nat} {items : List Item}
  {flow next : Flow Item Token} {fired : Fired Item}

variable (tokenIn tokenOut flow fired) in
/-- One item runs: nothing that is left pays its token, and its token covers what it takes. -/
structure Fires [DecidableEq Token] (next : Flow Item Token) : Prop where
  left : flow.pending.Perm (fired.item :: next.pending)
  complete : ∀ other ∈ flow.pending, tokenOut other ≠ tokenIn fired.item
  covered : fired.taken ≤ flow.balance (tokenIn fired.item)
  ran : next.ran = flow.ran ++ [fired]
  balance : ∀ token, next.balance token =
    flow.balance token - (if tokenIn fired.item = token then fired.taken else 0) +
      if tokenOut fired.item = token then fired.paid else 0

variable (tokenIn tokenOut initial items flow) in
/-- What holds all along a flow of some items from some balances. -/
structure Conserves [DecidableEq Token] : Prop where
  balanced : ∀ token, flow.balance token + takenFrom tokenIn flow.ran token =
    initial token + paidTo tokenOut flow.ran token
  once : (flow.ran.map Fired.item ++ flow.pending).Perm items
  ordered : ProducersFirst (fun fired => tokenIn fired.item) (fun fired => tokenOut fired.item)
    flow.ran
  closed : ∀ earlier ∈ flow.ran, ∀ other ∈ flow.pending, tokenOut other ≠ tokenIn earlier.item

theorem conserves_start [DecidableEq Token] {start : List Item} (listed : start.Perm items) :
    Conserves tokenIn tokenOut initial items ⟨[], start, initial⟩ where
  balanced := fun token => rfl
  once := listed
  ordered := producersFirst_nil
  closed := by simp

/-- The order in which the rest is listed does not matter. -/
theorem Conserves.perm [DecidableEq Token]
    (conserves : Conserves tokenIn tokenOut initial items flow) {pending : List Item}
    (listed : pending.Perm flow.pending) :
    Conserves tokenIn tokenOut initial items { flow with pending := pending } where
  balanced := conserves.balanced
  once := (listed.append_left _).trans conserves.once
  ordered := conserves.ordered
  closed := fun earlier member other left =>
    conserves.closed earlier member other (listed.subset left)

/-- **One step.** An item that may run keeps the books. -/
theorem Conserves.fire [DecidableEq Token]
    (conserves : Conserves tokenIn tokenOut initial items flow)
    (fires : Fires tokenIn tokenOut flow fired next) :
    Conserves tokenIn tokenOut initial items next where
  balanced := by
    intro token
    have before := conserves.balanced token
    have covered := fires.covered
    rw [fires.ran, fires.balance, takenFrom_concat, paidTo_concat]
    by_cases here : tokenIn fired.item = token
    · rw [← here] at before ⊢
      simp only [if_true]
      omega
    · simp only [here, if_false]
      omega
  once := by
    rw [fires.ran, map_append, map_singleton, append_assoc, singleton_append]
    exact (fires.left.symm.append_left _).trans conserves.once
  ordered := by
    rw [fires.ran]
    apply conserves.ordered.concat
    have waiting : fired.item ∈ flow.pending := fires.left.symm.subset mem_cons_self
    intro taken
    rw [map_append, mem_append] at taken
    rcases taken with earlier | here
    · obtain ⟨other, member, same⟩ := mem_map.mp earlier
      exact conserves.closed other member fired.item waiting same.symm
    · rw [map_singleton, mem_singleton] at here
      exact fires.complete fired.item waiting here
  closed := by
    rw [fires.ran]
    intro earlier member other left
    have waiting : other ∈ flow.pending := fires.left.symm.subset (mem_cons_of_mem _ left)
    rcases mem_append.mp member with before | here
    · exact conserves.closed earlier before other waiting
    · rw [mem_singleton.mp here]
      exact fires.complete other waiting

end Flow

end Fynd.Foundation
