import Fynd.Split.Plan

/-!
# What merging the paths gives

Every hop of the paths is merged into one swap, filed under the token it takes, and the
in-degree of a token is the number of merged swaps that pay it.
-/

namespace Fynd

open Foundation List

/-! ## Every hop once -/

variable {swaps : List SplitSwap} (hops : Map HopKey SplitSwap) (paths : List PathAllocation)

private theorem lookup_noteHop (hop : SimulatedHop) (key : HopKey) : (noteHop hops hop).lookup key =
      if key = hopKey hop.descriptor then
        some ((hops.lookup key).getD ⟨hop.descriptor, 0, 0⟩)
      else hops.lookup key := by
  unfold noteHop
  split
  · rename_i known
    split
    · rename_i same
      rw [same]
      obtain ⟨swap, found⟩ := Option.isSome_iff_exists.mp known
      rw [found]
      rfl
    · rfl
  · rename_i unknown
    rw [lookup_insert_ite]
    split
    · rename_i same
      rw [same, Option.not_isSome_iff_eq_none.mp unknown]
      rfl
    · rfl

/-- A merged swap is filed under its own key. -/
def Keyed : Prop :=
  ∀ key swap, hops.lookup key = some swap → hopKey swap.hop = key

/-- What holds of every hop as it is first noted holds of every merged swap. -/
theorem forall_foldl_noteHop {holds : HopKey → SplitSwap → Prop} {listed : List SimulatedHop}
    (noted : ∀ hop ∈ listed, holds (hopKey hop.descriptor) ⟨hop.descriptor, 0, 0⟩)
    (before : ∀ key swap, hops.lookup key = some swap → holds key swap) :
    ∀ key swap, (listed.foldl noteHop hops).lookup key = some swap → holds key swap := by
  induction listed generalizing hops with
  | nil => exact before
  | cons hop rest ih =>
    obtain ⟨here, later⟩ := forall_mem_cons.mp noted
    apply ih _ later
    intro key swap found
    rw [lookup_noteHop] at found
    split at found
    · rename_i same
      cases known : hops.lookup key with
      | none =>
        rw [known] at found
        cases found
        exact same ▸ here
      | some held =>
        rw [known] at found
        cases found
        exact before key _ known
    · exact before key swap found

private theorem mem_foldl_noteHop (listed : List SimulatedHop) (key : HopKey) :
    ((listed.foldl noteHop hops).lookup key).isSome = true ↔
      (hops.lookup key).isSome = true ∨ key ∈ listed.map fun hop => hopKey hop.descriptor := by
  induction listed generalizing hops with
  | nil => simp
  | cons hop rest ih =>
    rw [foldl_cons, ih, lookup_noteHop, map_cons, mem_cons]
    by_cases same : key = hopKey hop.descriptor <;> simp [same]

/-- The hops of the paths. -/
def hopKeys : List HopKey :=
  (paths.flatMap PathAllocation.hops).map fun hop => hopKey hop.descriptor

/-- The merged swaps are the hops of the paths. -/
theorem mem_keys_mergedHops (key : HopKey) :
    key ∈ (mergedHops paths).keys ↔ key ∈ hopKeys paths := by
  rw [← AList.mem_keys, ← AList.lookup_isSome, mergedHops, mem_foldl_noteHop]
  simp [hopKeys]

/-! ## Swaps by the token they take -/

section

variable (branches : Map Address (List SplitSwap))

/-- The swaps of a token and the others are all that wait. -/
theorem waiting_erase (token : Address) :
    ((branches.lookup token).getD [] ++ waiting (branches.erase token)).Perm
      (waiting branches) := by
  by_cases member : token ∈ branches
  · obtain ⟨branch, before, after, _, shape, erased⟩ := exists_of_kerase (AList.mem_keys.mp member)
    have found : branches.lookup token = some branch := by
      rw [lookup_eq_some_iff, shape]
      simp
    have rest : (branches.erase token).entries = before ++ after := erased
    rw [found, Option.getD_some, waiting, waiting, rest, shape, flatMap_append,
      flatMap_append, flatMap_cons, ← append_assoc, ← append_assoc]
    exact List.Perm.append_right _ perm_append_comm
  · rw [AList.lookup_eq_none.mpr member]
    have same : (branches.erase token).entries = branches.entries :=
      kerase_of_notMem_keys (mt AList.mem_keys.mpr member)
    rw [waiting, same]
    exact List.Perm.refl _

private theorem waiting_addToBranch (swap : SplitSwap) :
    (waiting (addToBranch branches swap)).Perm (swap :: waiting branches) := by
  have added : waiting (addToBranch branches swap) =
      ((branches.lookup swap.hop.tokenIn.address).getD [] ++ [swap]) ++
        waiting (branches.erase swap.hop.tokenIn.address) := rfl
  rw [added]
  have rest := waiting_erase branches swap.hop.tokenIn.address
  refine List.Perm.trans ?_ (rest.cons swap)
  rw [append_assoc, singleton_append]
  exact perm_middle

private theorem waiting_foldl_addToBranch (swaps : List SplitSwap) :
    (waiting (swaps.foldl addToBranch branches)).Perm (swaps ++ waiting branches) := by
  induction swaps generalizing branches with
  | nil => exact List.Perm.refl _
  | cons swap rest ih =>
    rw [foldl_cons, cons_append]
    refine (ih _).trans ?_
    refine ((waiting_addToBranch branches swap).append_left rest).trans ?_
    exact perm_middle

/-- Every branch is nonempty and takes the token it is filed under. -/
def Filed : Prop :=
  ∀ token branch, branches.lookup token = some branch →
    branch ≠ [] ∧ ∀ swap ∈ branch, swap.hop.tokenIn.address = token

end

variable {branches : Map Address (List SplitSwap)}

private theorem Filed.addToBranch (filed : Filed branches) (swap : SplitSwap) :
    Filed (addToBranch branches swap) := by
  intro token branch found
  rw [Fynd.addToBranch, lookup_insert_ite] at found
  split at found
  · rename_i same
    cases found
    refine ⟨by simp, fun other member => ?_⟩
    rcases mem_append.mp member with held | here
    · cases known : branches.lookup swap.hop.tokenIn.address with
      | none => simp [known] at held
      | some branch =>
        rw [known, Option.getD_some] at held
        rw [same]
        exact (filed _ branch known).2 other held
    · rw [mem_singleton.mp here, same]
  · exact filed token branch found

theorem Filed.erase (filed : Filed branches) (token : Address) : Filed (branches.erase token) := by
  intro other branch found
  exact filed other branch (lookup_erase_eq_some found).2

theorem filed_mergeSharedHops : Filed (mergeSharedHops paths) := by
  intro token branch found
  rw [mergeSharedHops, lookup_mapValues, Option.map_eq_some_iff] at found
  obtain ⟨unsorted, held, rfl⟩ := found
  have filed : Filed (((mergedHops paths).entries.map Sigma.snd).foldl addToBranch ∅) :=
    List.foldlRecOn _ _ nofun fun _ filed swap _ => filed.addToBranch swap
  obtain ⟨nonempty, takes⟩ := filed token unsorted held
  have sorted := perm_insertionSort precedes unsorted
  refine ⟨fun none => nonempty ?_, fun swap member => takes swap (sorted.subset member)⟩
  rw [none] at sorted
  exact nil_perm.mp sorted

private theorem waiting_mapValues {sort : List SplitSwap → List SplitSwap}
    (sorts : ∀ branch, (sort branch).Perm branch) (branches : Map Address (List SplitSwap)) :
    (waiting (mapValues sort branches)).Perm (waiting branches) := by
  unfold waiting mapValues
  rw [flatMap_map]
  exact List.Perm.flatMap_left _ fun entry _ => sorts entry.2

private theorem perm_waiting_mergeSharedHops :
    (waiting (mergeSharedHops paths)).Perm ((mergedHops paths).entries.map Sigma.snd) := by
  refine (waiting_mapValues (perm_insertionSort precedes) _).trans ?_
  simpa [waiting] using waiting_foldl_addToBranch ∅ ((mergedHops paths).entries.map Sigma.snd)

theorem exists_hop_of_merged {paths : List PathAllocation} {swap : SplitSwap}
    (merged : swap ∈ waiting (mergeSharedHops paths)) :
    ∃ path ∈ paths, ∃ hop ∈ path.hops, hop.descriptor = swap.hop := by
  have listed := (perm_waiting_mergeSharedHops paths).subset merged
  obtain ⟨entry, member, rfl⟩ := mem_map.mp listed
  have hops : ∀ key swap, (mergedHops paths).lookup key = some swap →
      ∃ path ∈ paths, ∃ hop ∈ path.hops, hop.descriptor = swap.hop := by
    refine forall_foldl_noteHop ∅ (fun hop noted => ?_) nofun
    obtain ⟨path, inPaths, inPath⟩ := mem_flatMap.mp noted
    exact ⟨path, inPaths, hop, inPath, rfl⟩
  exact hops entry.1 entry.2 (lookup_eq_some_iff.mpr member)

/-- **Merging gives every hop once.** -/
theorem waiting_mergeSharedHops :
    ((waiting (mergeSharedHops paths)).map fun swap => hopKey swap.hop).Perm
      (mergedHops paths).keys := by
  refine ((perm_waiting_mergeSharedHops paths).map _).trans ?_
  have keyed : Keyed (mergedHops paths) := forall_foldl_noteHop ∅ (fun _ _ => rfl) nofun
  have keys : ((mergedHops paths).entries.map Sigma.snd).map (fun swap => hopKey swap.hop) =
      (mergedHops paths).keys := by
    rw [map_map]
    apply map_congr_left
    intro entry member
    exact keyed entry.1 entry.2 (lookup_eq_some_iff.mpr member)
  rw [keys]

/-! ## In-degrees -/

/-- The swaps that pay a token. -/
def payersOf (swaps : List SplitSwap) (token : Address) : Nat :=
  swaps.countP fun swap => swap.hop.tokenOut.address = token

theorem payersOf_cons (swap : SplitSwap) (swaps : List SplitSwap) (token : Address) :
    payersOf (swap :: swaps) token =
      payersOf swaps token + if token = swap.hop.tokenOut.address then 1 else 0 := by
  rw [payersOf, countP_cons, payersOf]
  simp [eq_comm]

theorem payersOf_eq_zero_iff {token : Address} :
    payersOf swaps token = 0 ↔ ∀ swap ∈ swaps, swap.hop.tokenOut.address ≠ token := by
  simp [payersOf, countP_eq_zero]

theorem payersOf_perm {others : List SplitSwap}
    (same : (swaps.map SplitSwap.hop).Perm (others.map SplitSwap.hop)) (token : Address) :
    payersOf swaps token = payersOf others token := by
  have counts := same.countP_eq fun hop => hop.tokenOut.address = token
  rwa [countP_map, countP_map] at counts

private theorem balanceAt_countBranch (inDegree : Map Address Nat)
    (branch : Sigma fun _ : Address => List SplitSwap) (token : Address) :
    balanceAt (countBranch inDegree branch) token =
      balanceAt inDegree token + payersOf branch.2 token := by
  have counts (swaps : List SplitSwap) (inDegree : Map Address Nat) :
      balanceAt (swaps.foldl (fun inDegree swap =>
        credit inDegree swap.hop.tokenOut.address 1) inDegree) token =
          balanceAt inDegree token + payersOf swaps token := by
    induction swaps generalizing inDegree with
    | nil => rfl
    | cons swap rest ih =>
      rw [foldl_cons, ih, balanceAt_credit, payersOf_cons]
      omega
  rw [countBranch, counts, balanceAt_credit]
  split <;> rfl

/-- The in-degree of a token counts the swaps that pay it. -/
theorem balanceAt_buildInDegree (hopsByToken : Map Address (List SplitSwap)) (token : Address) :
    balanceAt (buildInDegree hopsByToken) token = payersOf (waiting hopsByToken) token := by
  have counts (branches : List (Sigma fun _ : Address => List SplitSwap))
      (inDegree : Map Address Nat) :
      balanceAt (branches.foldl countBranch inDegree) token =
        balanceAt inDegree token + payersOf (branches.flatMap Sigma.snd) token := by
    induction branches generalizing inDegree with
    | nil => rfl
    | cons branch rest ih =>
      rw [foldl_cons, ih, balanceAt_countBranch, flatMap_cons, payersOf, payersOf,
        payersOf, countP_append, Nat.add_assoc]
  rw [buildInDegree, counts, waiting]
  exact Nat.zero_add _

end Fynd
