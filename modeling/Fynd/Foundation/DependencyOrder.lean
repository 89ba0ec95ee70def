import Mathlib.Data.List.Basic

/-!
# Lists in dependency order

Each item takes one token and pays another. A list is in dependency order when no item pays
a token that it or an item before it takes. So when the items are run in turn, all that is
ever paid into a token is there when the token is first taken.
-/

namespace Fynd.Foundation

open List

variable {Item Token : Type}

theorem forall_place_iff {items : List Item} {holds : List Item → Item → List Item → Prop} :
    (∀ before item after, items = before ++ item :: after → holds before item after) ↔
      ∀ i : Fin items.length, holds (items.take i) (items.get i) (items.drop (i + 1)) := by
  constructor
  · intro every i
    apply every
    rw [get_eq_getElem, getElem_cons_drop, take_append_drop]
  · rintro every before item after rfl
    have here := every ⟨before.length, by simp⟩
    have rest : (before ++ item :: after).drop (before.length + 1) = after := by
      rw [← drop_drop, drop_left]
      rfl
    simpa [rest] using here

variable {before after : List Item} {item : Item}

theorem place_concat {items : List Item} {last : Item}
    (place : items ++ [last] = before ++ item :: after) :
    (before = items ∧ item = last ∧ after = []) ∨
      ∃ rest, after = rest ++ [last] ∧ items = before ++ item :: rest := by
  rcases eq_nil_or_concat after with rfl | ⟨rest, other, rfl⟩
  · obtain ⟨rfl, same⟩ := append_inj' place rfl
    exact .inl ⟨rfl, (singleton_inj.mp same).symm, rfl⟩
  · have shape : items ++ [last] = (before ++ item :: rest) ++ [other] := by simpa using place
    obtain ⟨same, ends⟩ := append_inj' shape rfl
    exact .inr ⟨rest, by rw [singleton_inj.mp ends, concat_eq_append], same⟩

/-- When an item runs, no item that pays its token is still to run. -/
def ProducersFirst (tokenIn tokenOut : Item → Token) (items : List Item) : Prop :=
  ∀ before item after, items = before ++ item :: after →
    tokenIn item ∉ (item :: after).map tokenOut

instance [DecidableEq Token] (tokenIn tokenOut : Item → Token) (items : List Item) :
    Decidable (ProducersFirst tokenIn tokenOut items) :=
  decidable_of_iff _ forall_place_iff.symm

variable {tokenIn tokenOut : Item → Token} {items : List Item}

theorem ProducersFirst.not_taken (ordered : ProducersFirst tokenIn tokenOut items)
    (place : items = before ++ item :: after) : tokenOut item ∉ (before ++ [item]).map tokenIn := by
  intro taken
  obtain ⟨taker, member, same⟩ := mem_map.mp taken
  rcases mem_append.mp member with earlier | here
  · obtain ⟨early, middle, rfl⟩ := append_of_mem earlier
    apply ordered early taker (middle ++ item :: after) (by simp [place])
    exact mem_map.mpr ⟨item, by simp, same.symm⟩
  · obtain rfl := mem_singleton.mp here
    exact ordered before taker after place (mem_map.mpr ⟨taker, by simp, same.symm⟩)

theorem not_paid_of_not_taken {token : Token}
    (untaken : ∀ before item after, items = before ++ item :: after → tokenOut item = token →
      token ∉ (before ++ [item]).map tokenIn)
    {taker : Item} (place : items = before ++ taker :: after) (takes : tokenIn taker = token) :
    token ∉ (taker :: after).map tokenOut := by
  intro paid
  obtain ⟨payer, member, pays⟩ := mem_map.mp paid
  rcases mem_cons.mp member with rfl | later
  · exact untaken before payer after place pays (mem_map.mpr ⟨payer, by simp, takes⟩)
  · obtain ⟨middle, rest, rfl⟩ := append_of_mem later
    apply untaken (before ++ taker :: middle) payer rest (by simp [place]) pays
    exact mem_map.mpr ⟨taker, by simp, takes⟩

theorem producersFirst_nil : ProducersFirst tokenIn tokenOut [] := by
  rintro before item after place
  simp at place

theorem ProducersFirst.of_map {Image : Type} {image : Item → Image}
    {tokenIn tokenOut : Image → Token}
    (ordered : ProducersFirst tokenIn tokenOut (items.map image)) :
    ProducersFirst (fun item => tokenIn (image item)) (fun item => tokenOut (image item))
      items := by
  rintro before item after rfl
  have place := ordered (before.map image) (image item) (after.map image) (by simp)
  rwa [← map_cons, map_map] at place

theorem ProducersFirst.map {Image : Type} {image : Item → Image} {tokenIn tokenOut : Image → Token}
    (ordered : ProducersFirst (fun item => tokenIn (image item)) (fun item => tokenOut (image item))
      items) : ProducersFirst tokenIn tokenOut (items.map image) := by
  intro before imageItem after place
  obtain ⟨early, rest, rfl, rfl, behind⟩ := map_eq_append_iff.mp place
  obtain ⟨item, late, rfl, rfl, rfl⟩ := map_eq_cons_iff.mp behind
  have here := ordered early item late rfl
  rwa [← map_cons, map_map]

/-- What comes after the first item is in order too. -/
theorem ProducersFirst.tail (ordered : ProducersFirst tokenIn tokenOut (item :: items)) :
    ProducersFirst tokenIn tokenOut items := by
  rintro before other after rfl
  exact ordered (item :: before) other after rfl

/-- The items lead from one token to another. -/
def LeadsFrom (tokenIn tokenOut : Item → Token) : Token → Token → List Item → Prop
  | source, target, [] => source = target
  | source, target, item :: rest =>
    tokenIn item = source ∧ LeadsFrom tokenIn tokenOut (tokenOut item) target rest

private theorem LeadsFrom.taken_mem {source target : Token} {chain : List Item}
    (leads : LeadsFrom tokenIn tokenOut source target chain) (member : item ∈ chain) :
    tokenIn item = source ∨ tokenIn item ∈ chain.map tokenOut := by
  induction chain generalizing source with
  | nil => cases member
  | cons first rest ih =>
    rcases mem_cons.mp member with rfl | later
    · exact .inl leads.1
    · right
      rw [map_cons, mem_cons]
      exact ih leads.2 later

/-- **A chain has one dependency order.** -/
theorem ProducersFirst.eq_of_perm {source target : Token} {chain : List Item}
    (ordered : ProducersFirst tokenIn tokenOut items) (listed : items.Perm chain)
    (leads : LeadsFrom tokenIn tokenOut source target chain)
    (simple : (source :: chain.map tokenOut).Nodup) : items = chain := by
  induction chain generalizing items source with
  | nil => exact listed.eq_nil
  | cons first rest ih =>
    cases items with
    | nil => cases listed.symm.eq_nil
    | cons item others =>
      have here : item = first := by
        rcases mem_cons.mp (listed.subset mem_cons_self) with same | later
        · exact same
        · -- The token of a later link is paid by a link that would run after it.
          exfalso
          have paid : tokenIn item ∈ (first :: rest).map tokenOut := by
            rcases leads.2.taken_mem later with same | paid
            · exact mem_map.mpr ⟨first, mem_cons_self, same.symm⟩
            · exact mem_cons_of_mem _ paid
          exact ordered [] item others rfl ((listed.map tokenOut).symm.subset paid)
      subst here
      rw [ih ordered.tail (listed.cons_inv) leads.2 (nodup_cons.mp simple).2]

/-- An item that pays no token taken so far can run next. -/
theorem ProducersFirst.concat (ordered : ProducersFirst tokenIn tokenOut items)
    (untaken : tokenOut item ∉ (items ++ [item]).map tokenIn) :
    ProducersFirst tokenIn tokenOut (items ++ [item]) := by
  intro before taker after place
  apply not_paid_of_not_taken _ place rfl
  intro before payer after place pays
  rw [← pays]
  rcases place_concat place with ⟨rfl, rfl, _⟩ | ⟨rest, _, earlier⟩
  · exact untaken
  · exact ordered.not_taken earlier

end Fynd.Foundation
