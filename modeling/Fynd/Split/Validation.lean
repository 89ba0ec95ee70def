import Mathlib.Data.List.Chain
import Fynd.Foundation.Fallible
import Fynd.Foundation.Worklist
import Fynd.Types.Route

/-!
# Which routes are well formed

A route without split fractions is a chain of tokens. One with split fractions is checked
branch collection by branch collection. A collection holds the swaps that take one token,
and the collections stand in the order in which their tokens are first taken.
-/

namespace Fynd

open Foundation List

variable {P : Type}

/-- Why a route is not well formed. -/
inductive RouteValidationError
  | emptyRoute
  | disconnectedSwaps (firstOut secondIn : Address)
  | unsupportedCycle (token first last : Address)
  | invalidSplit (reason : String)
  | disconnectedSplitEnd (tokenOut terminalToken : Address)
  | disconnectedSplitStart (tokenIn startToken : Address)
  deriving DecidableEq, Repr

/-! ## Branch collections -/

section Collections

variable {T : Type}

/-- Files an item under its token. A token that is new goes last. -/
def fileUnder (token : Address) (item : T) : List (Address × List T) → List (Address × List T)
  | [] => [(token, [item])]
  | (other, items) :: rest =>
    if other = token then (other, items ++ [item]) :: rest
    else (other, items) :: fileUnder token item rest

/-- The items by the token each takes, in order of first appearance. -/
def branchCollections (tokenIn : T → Address) (items : List T) : List (Address × List T) :=
  items.foldl (fun collections item => fileUnder (tokenIn item) item collections) []

private theorem keys_fileUnder (token : Address) (item : T)
    (collections : List (Address × List T)) :
    (fileUnder token item collections).map Prod.fst =
      if token ∈ collections.map Prod.fst then collections.map Prod.fst
      else collections.map Prod.fst ++ [token] := by
  induction collections with
  | nil => simp [fileUnder]
  | cons collection rest ih =>
    unfold fileUnder
    by_cases here : collection.1 = token
    · simp [here]
    · rw [if_neg here, map_cons, ih]
      have apart : ¬ token = collection.1 := fun same => here same.symm
      by_cases later : token ∈ rest.map Prod.fst <;> simp [apart, later]

variable {tokenIn : T → Address} {items : List T} {collections : List (Address × List T)} {item : T}
  {token : Address}

/-- Filing adds the item to the collection of its token and leaves the others as they are. -/
theorem mem_fileUnder (distinct : (collections.map Prod.fst).Nodup) {entry : Address × List T}
    (member : entry ∈ fileUnder token item collections) :
    (entry.1 ≠ token ∧ entry ∈ collections) ∨
      (entry.1 = token ∧ ((token ∉ collections.map Prod.fst ∧ entry.2 = [item]) ∨
        ∃ items, (token, items) ∈ collections ∧ entry.2 = items ++ [item])) := by
  induction collections with
  | nil =>
    obtain rfl := mem_singleton.mp member
    exact .inr ⟨rfl, .inl ⟨by simp, rfl⟩⟩
  | cons collection rest ih =>
    obtain ⟨other, items⟩ := collection
    rw [map_cons, nodup_cons] at distinct
    unfold fileUnder at member
    split at member
    · rename_i here
      subst here
      rcases mem_cons.mp member with rfl | later
      · exact .inr ⟨rfl, .inr ⟨items, by simp, rfl⟩⟩
      · have apart : entry.1 ≠ other := fun same =>
          distinct.1 (mem_map.mpr ⟨entry, later, same⟩)
        exact .inl ⟨apart, mem_cons_of_mem _ later⟩
    · rename_i apart
      rcases mem_cons.mp member with rfl | later
      · exact .inl ⟨apart, by simp⟩
      · rcases ih distinct.2 later with ⟨unequal, kept⟩ | ⟨same, new | ⟨held, found, added⟩⟩
        · exact .inl ⟨unequal, mem_cons_of_mem _ kept⟩
        · refine .inr ⟨same, .inl ⟨?_, new.2⟩⟩
          simpa [Ne.symm apart] using new.1
        · exact .inr ⟨same, .inr ⟨held, mem_cons_of_mem _ found, added⟩⟩

variable (tokenIn items collections) in
/-- What grouping items by their token gives. -/
structure Collected : Prop where
  distinct : (collections.map Prod.fst).Nodup
  keys : ∀ token, token ∈ collections.map Prod.fst ↔ token ∈ items.map tokenIn
  filed : ∀ entry ∈ collections, entry.2 = items.filter fun item => tokenIn item = entry.1

private theorem Collected.fileUnder (collected : Collected tokenIn items collections) (item : T) :
    Collected tokenIn (items ++ [item]) (fileUnder (tokenIn item) item collections) where
  distinct := by
    rw [keys_fileUnder]
    split
    · exact collected.distinct
    · rename_i new
      exact nodup_append.mpr ⟨collected.distinct, by simp, by
        rintro token held other added rfl
        exact new (mem_singleton.mp added ▸ held)⟩
  keys := by
    intro token
    rw [keys_fileUnder]
    split
    · rename_i held
      rw [collected.keys] at held ⊢
      rw [map_append, mem_append]
      refine ⟨.inl, fun member => member.elim id fun same => ?_⟩
      obtain rfl := mem_singleton.mp same
      exact held
    · rw [mem_append, map_append, mem_append, collected.keys]
      simp
  filed := by
    intro entry member
    rw [filter_append]
    rcases mem_fileUnder collected.distinct member with
      ⟨apart, kept⟩ | ⟨same, ⟨new, only⟩ | ⟨held, found, added⟩⟩
    · rw [collected.filed entry kept]
      simp [Ne.symm apart]
    · have none : items.filter (fun item => tokenIn item = entry.1) = [] := by
        rw [filter_eq_nil_iff]
        intro other listed taken
        apply new
        rw [collected.keys, ← same, ← of_decide_eq_true taken]
        exact mem_map_of_mem listed
      rw [none, only]
      simp [same]
    · have before : held = _ := collected.filed _ found
      rw [added, before]
      simp [same]

variable (tokenIn : T → Address) (items : List T)

theorem branchCollections_append_singleton (item : T) :
    branchCollections tokenIn (items ++ [item]) =
      fileUnder (tokenIn item) item (branchCollections tokenIn items) := by
  rw [branchCollections, foldl_append]
  rfl

/-- The collections hold every swap under the token it takes. -/
theorem collected_branchCollections :
    Collected tokenIn items (branchCollections tokenIn items) := by
  induction items using List.reverseRecOn with
  | nil => exact ⟨nodup_nil, fun token => Iff.rfl, by simp [branchCollections]⟩
  | append_singleton items item ih =>
    rw [branchCollections_append_singleton]
    exact ih.fileUnder item

theorem keys_branchCollections_prefix (early later : List T) :
    (branchCollections tokenIn early).map Prod.fst <+:
      (branchCollections tokenIn (early ++ later)).map Prod.fst := by
  induction later using List.reverseRecOn with
  | nil => simp
  | append_singleton later item ih =>
    rw [← append_assoc, branchCollections_append_singleton, keys_fileUnder]
    refine ih.trans ?_
    split
    · exact prefix_rfl
    · exact prefix_append _ _

end Collections

namespace Route

/-- What the swaps that take the first token take. -/
def inputAmount (route : Route P) : Option Nat :=
  (branchCollections Swap.tokenIn route.swaps).head?.map fun collection =>
    collection.2.foldl (fun total swap => total + swap.amountIn) 0

end Route

/-! ## Sequential routes -/

/-- Checks that each swap takes what the one before it pays. -/
def validateConnected : List (Swap P) → Except RouteValidationError Unit
  | first :: second :: rest =>
    if first.tokenOut ≠ second.tokenIn then
      .error (.disconnectedSwaps first.tokenOut second.tokenIn)
    else validateConnected (second :: rest)
  | _ => .ok ()

/-- Checks that no token repeats, but for a last one that is the first. -/
def validateTokens (first last : Address) :
    List Address → List (Swap P) → Except RouteValidationError Unit
  | _, [] => .ok ()
  | seen, swap :: rest =>
    if swap.tokenOut ∈ seen then
      if rest.isEmpty && swap.tokenOut = first then validateTokens first last seen rest
      else .error (.unsupportedCycle swap.tokenOut first last)
    else validateTokens first last (swap.tokenOut :: seen) rest

/-! ## Split routes -/

section SplitRoutes

variable (display : Address → String) (displaySplit : Binary64 → String)

/-- Checks the fractions of a collection and adds them up. All but the last lie strictly between
zero and one, and the last is zero. -/
def sumFractions (tokenIn : Address) :
    Nat → Binary64 → List (Swap P) → Except RouteValidationError Binary64
  | _, sum, [] => .ok sum
  | _, sum, [last] =>
    if !last.split.eq 0 then
      .error (.invalidSplit ("last branch in collection for token_in " ++ display tokenIn ++
        " must have split == 0.0 (remainder), got " ++ displaySplit last.split))
    else .ok sum
  | i, sum, swap :: rest =>
    if swap.split.le 0 || swap.split.ge 1 then
      .error (.invalidSplit ("swap " ++ toString i ++ " for token_in " ++ display tokenIn ++
        " must have 0.0 < split < 1.0, got " ++ displaySplit swap.split))
    else sumFractions tokenIn (i + 1) (sum.add swap.split) rest

/-- Checks the fractions of one collection. -/
def validateFractions (tokenIn : Address) :
    List (Swap P) → Except RouteValidationError Unit
  | [single] =>
    if !single.split.eq 0 then
      .error (.invalidSplit ("single swap for token_in " ++ display tokenIn ++
        " must have split == 0.0, got " ++ displaySplit single.split))
    else .ok ()
  | collection => do
      let sum ← sumFractions display displaySplit tokenIn 0 0 collection
      if sum.ge 1 then
        .error (.invalidSplit ("split sum for token_in " ++ display tokenIn ++
          " must be < 1.0, got " ++ displaySplit sum))
      else .ok ()

/-- Checks the fractions of every collection. -/
def validateSplitAmounts (collections : List (Address × List (Swap P))) :
    Except RouteValidationError Unit :=
  collections.forM fun collection =>
    validateFractions display displaySplit collection.1 collection.2

/-- The tokens the swaps of a token's collection pay. -/
def outputsOf (collections : List (Address × List (Swap P))) (token : Address) : List Address :=
  (collections.find? fun collection => collection.1 = token).elim [] fun collection =>
    collection.2.map Swap.tokenOut

/-- Follows the swaps from the tokens in the queue, for so many tokens at most. -/
def visitTokens (collections : List (Address × List (Swap P))) :
    Nat → List Address → List Address → List Address
  | 0, reachable, _ => reachable
  | _ + 1, reachable, [] => reachable
  | fuel + 1, reachable, token :: tokensToVisit =>
    let fresh := unseen reachable (outputsOf collections token)
    visitTokens collections fuel (reachable ++ fresh) (tokensToVisit ++ fresh)

/-- Checks that every collection's token is reached from the first one. -/
def validateBfsConnectivity (collections : List (Address × List (Swap P)))
    (firstToken : Address) : Except RouteValidationError Unit :=
  let outputs := collections.flatMap fun collection => collection.2.map Swap.tokenOut
  let reachable := visitTokens collections (outputs.length + 1) [firstToken] [firstToken]
  match collections.find? fun collection => collection.1 ∉ reachable with
  | some collection => .error (.disconnectedSplitStart collection.1 firstToken)
  | none => .ok ()

/-- Checks that every output is taken by a collection other than the first, or is the last. -/
def validateDeadEnds (collections : List (Address × List (Swap P)))
    (terminalToken : Address) : Except RouteValidationError Unit :=
  let nonFirstInputTokens := (collections.drop 1).map Prod.fst
  match (collections.flatMap Prod.snd).find? fun swap =>
      swap.tokenOut ∉ nonFirstInputTokens && swap.tokenOut ≠ terminalToken with
  | some swap => .error (.disconnectedSplitEnd swap.tokenOut terminalToken)
  | none => .ok ()

/-- Checks that no output is the token of an earlier collection or of its own, but for the first
token of a round trip. -/
def findCycle (firstToken terminalToken : Address) :
    List Address → List (Address × List (Swap P)) → Except RouteValidationError Unit
  | _, [] => .ok ()
  | earlier, (tokenIn, collection) :: rest =>
    let earlierInputs := tokenIn :: earlier
    match collection.find? fun swap => swap.tokenOut ∈ earlierInputs &&
        !(firstToken = terminalToken && swap.tokenOut = firstToken) with
    | some swap => .error (.unsupportedCycle swap.tokenOut firstToken terminalToken)
    | none => findCycle firstToken terminalToken earlierInputs rest

/-- Checks for cycles. A round trip needs more than one collection. -/
def validateCycles (collections : List (Address × List (Swap P)))
    (firstToken terminalToken : Address) : Except RouteValidationError Unit :=
  if firstToken = terminalToken && collections.length ≤ 1 then
    .error (.unsupportedCycle firstToken firstToken terminalToken)
  else findCycle firstToken terminalToken [] collections

end SplitRoutes

namespace Route

variable (display : Address → String) (displaySplit : Binary64 → String)

/-- Whether a swap takes a fraction of its token. -/
def isSplit (route : Route P) : Bool := route.swaps.any fun swap => swap.split.gt 0

/-- Checks a route without split fractions. -/
def validateSequentialRoute (swaps : List (Swap P)) (first last : Swap P) :
    Except RouteValidationError Unit := do
  validateConnected swaps
  validateTokens first.tokenIn last.tokenOut [first.tokenIn] swaps

/-- Checks a route with split fractions. -/
def validateSplitRoute (swaps : List (Swap P)) (first last : Swap P) :
    Except RouteValidationError Unit := do
  let collections := branchCollections Swap.tokenIn swaps
  validateSplitAmounts display displaySplit collections
  validateBfsConnectivity collections first.tokenIn
  validateDeadEnds collections last.tokenOut
  validateCycles collections first.tokenIn last.tokenOut

/-- Checks that a route is well formed. -/
def validate (route : Route P) : Except RouteValidationError Unit :=
  match route.swaps.head?, route.swaps.getLast? with
  | some first, some last =>
    if route.isSplit then validateSplitRoute display displaySplit route.swaps first last
    else validateSequentialRoute route.swaps first last
  | _, _ => .error .emptyRoute

end Route

/-! ## What the checks establish -/

section Checks

variable {collections : List (Address × List (Swap P))}

/-- A token the swaps of another one's collection pay. -/
def Feeds (collections : List (Address × List (Swap P))) (token next : Address) : Prop :=
  next ∈ outputsOf collections token

private theorem outputsOf_subset (token : Address) : outputsOf collections token ⊆
    collections.flatMap fun collection => collection.2.map Swap.tokenOut := by
  unfold outputsOf
  cases found : collections.find? fun collection => collection.1 = token with
  | none => exact nil_subset _
  | some collection =>
    intro next member
    exact mem_flatMap.mpr ⟨collection, mem_of_find?_eq_some found, member⟩

variable {firstToken : Address} {collection : Address × List (Swap P)}
  {swap : Swap P} {swaps : List (Swap P)} {last : Swap P}

variable {display : Address → String} {displaySplit : Binary64 → String}
  {before after : List (Swap P)} {token terminalToken : Address}

/-- A search that follows the rule of the worklist visits what swaps lead to. -/
theorem mem_visitTokens_of_worklist {outputs : List Address}
    (listed : ∀ token, outputsOf collections token ⊆ outputs) {fuel : Nat}
    {reachable tokensToVisit : List Address}
    (worklist : Worklist (outputsOf collections) outputs firstToken fuel reachable tokensToVisit) :
    token ∈ visitTokens collections fuel reachable tokensToVisit ↔
      Relation.ReflTransGen (Feeds collections) firstToken token := by
  induction fuel generalizing reachable tokensToVisit with
  | zero =>
    rw [worklist.pending_eq_nil] at worklist
    exact worklist.mem_iff
  | succ fuel ih =>
    cases tokensToVisit with
    | nil => exact worklist.mem_iff
    | cons token later => exact ih (worklist.visit (listed token) (.refl _))

/-- The fuel suffices: every token that swaps lead to is visited. -/
theorem mem_visitTokens_iff : token ∈ visitTokens collections
        ((collections.flatMap fun collection => collection.2.map Swap.tokenOut).length + 1)
        [firstToken] [firstToken] ↔
      Relation.ReflTransGen (Feeds collections) firstToken token :=
  mem_visitTokens_of_worklist outputsOf_subset (Worklist.init _ _ _)

/-- **The search decides reachability.** The check passes exactly when swaps lead from the first
token to every token that a collection takes. -/
theorem validateBfsConnectivity_eq_ok_iff :
    validateBfsConnectivity collections firstToken = .ok () ↔
      ∀ collection ∈ collections,
        Relation.ReflTransGen (Feeds collections) firstToken collection.1 := by
  unfold validateBfsConnectivity
  dsimp only
  split
  · rename_i collection missing
    have unreached := find?_some missing
    rw [decide_eq_true_eq, mem_visitTokens_iff] at unreached
    refine ⟨fun accepted => (by cases accepted), fun paths => ?_⟩
    exact absurd (paths collection (mem_of_find?_eq_some missing)) unreached
  · rename_i none
    refine ⟨fun _ collection member => ?_, fun _ => rfl⟩
    have found := find?_eq_none.mp none collection member
    rwa [decide_eq_true_eq, not_not, mem_visitTokens_iff] at found

private theorem mem_keys_of_validateDeadEnds
    (accepted : validateDeadEnds collections terminalToken = .ok ())
    (member : collection ∈ collections) (swaps : swap ∈ collection.2)
    (interior : swap.tokenOut ≠ terminalToken) : swap.tokenOut ∈ collections.map Prod.fst := by
  unfold validateDeadEnds at accepted
  dsimp only at accepted
  split at accepted
  · cases accepted
  · rename_i none
    have consumed := find?_eq_none.mp none swap (mem_flatMap.mpr ⟨collection, member, swaps⟩)
    simp only [interior, ne_eq, not_false_eq_true, decide_true, Bool.and_true, decide_eq_true_eq,
      not_not] at consumed
    exact map_subset _ (drop_subset _ _) consumed

/-- An output that is the token of its own or of an earlier collection is the first token of a
round trip. -/
theorem return_of_findCycle {earlier : List Address}
    (accepted : findCycle firstToken terminalToken earlier collections = .ok ())
    {before after : List (Address × List (Swap P))}
    (place : collections = before ++ collection :: after) (member : swap ∈ collection.2)
    (returns : swap.tokenOut ∈ earlier ++ (before ++ [collection]).map Prod.fst) :
    firstToken = terminalToken ∧ swap.tokenOut = firstToken := by
  induction before generalizing collections earlier with
  | nil =>
    subst place
    obtain ⟨tokenIn, swaps⟩ := collection
    rw [nil_append] at accepted
    unfold findCycle at accepted
    dsimp only at accepted
    split at accepted
    · cases accepted
    · rename_i none
      have allowed := find?_eq_none.mp none swap member
      have inputs : swap.tokenOut ∈ tokenIn :: earlier := by
        simpa [or_comm] using returns
      simpa [inputs] using allowed
  | cons head before ih =>
    subst place
    obtain ⟨tokenIn, swaps⟩ := head
    rw [cons_append] at accepted
    unfold findCycle at accepted
    dsimp only at accepted
    split at accepted
    · cases accepted
    · apply ih accepted rfl
      rw [cons_append, map_cons] at returns
      simp only [mem_append, mem_cons] at returns ⊢
      tauto

private theorem last_of_sumFractions {tokenIn : Address} {i : Nat} {sum total : Binary64}
    (summed : sumFractions display displaySplit tokenIn i sum swaps = .ok total)
    (ends : swaps.getLast? = some last) : last.split.eq 0 = true := by
  induction swaps generalizing i sum with
  | nil => cases ends
  | cons swap rest ih =>
    cases rest with
    | nil =>
      obtain rfl : swap = last := by simpa using ends
      unfold sumFractions at summed
      split at summed
      · cases summed
      · rename_i zero
        simpa using zero
    | cons next rest =>
      unfold sumFractions at summed
      split at summed
      · cases summed
      · exact ih summed (by simpa using ends)

private theorem last_of_validateSplitAmounts
    (accepted : validateSplitAmounts display displaySplit collections = .ok ())
    (member : collection ∈ collections) (ends : collection.2.getLast? = some last) :
    last.split.eq 0 = true := by
  have checked := forM_eq_ok_iff.mp accepted collection member
  unfold validateFractions at checked
  split at checked
  · rename_i single only
    rw [only, getLast?_singleton, Option.some.injEq] at ends
    subst ends
    split at checked
    · cases checked
    · rename_i zero
      simpa using zero
  · obtain ⟨sum, summed, _⟩ := bind_eq_ok_iff.mp checked
    exact last_of_sumFractions summed ends

private theorem validateConnected_eq_ok_iff : validateConnected swaps = .ok () ↔
    swaps.IsChain fun first second => first.tokenOut = second.tokenIn := by
  induction swaps with
  | nil => exact iff_of_true rfl .nil
  | cons first rest ih =>
    cases rest with
    | nil => exact iff_of_true rfl (.singleton _)
    | cons second rest =>
      rw [validateConnected, isChain_cons_cons, ← ih]
      split
      · rename_i apart
        exact iff_of_false nofun fun linked => apart linked.1
      · rename_i linked
        exact (and_iff_right (not_not.mp linked)).symm

theorem linked_of_validateConnected {first second : Swap P}
    (connected : validateConnected (before ++ first :: second :: after) = .ok ()) :
    first.tokenOut = second.tokenIn :=
  (isChain_append_cons_cons.mp (validateConnected_eq_ok_iff.mp connected)).2.1

private theorem consumed_of_validateConnected (connected : validateConnected swaps = .ok ())
    (ends : swaps.getLast? = some last) (member : swap ∈ swaps)
    (interior : swap.tokenOut ≠ last.tokenOut) : swap.tokenOut ∈ swaps.map Swap.tokenIn := by
  obtain ⟨before, after, rfl⟩ := append_of_mem member
  cases after with
  | nil =>
    rw [getLast?_concat, Option.some.injEq] at ends
    exact absurd (congrArg Swap.tokenOut ends) interior
  | cons next after =>
    rw [linked_of_validateConnected connected]
    exact mem_map_of_mem (by simp)

/-- In a chain of distinct tokens, an output that was seen or taken before is the first token, and
comes last. -/
theorem return_of_validateTokens {first last : Address} {seen : List Address}
    (connected : validateConnected swaps = .ok ())
    (accepted : validateTokens first last seen swaps = .ok ())
    (started : ∀ swap ∈ swaps.head?, swap.tokenIn ∈ seen) (place : swaps = before ++ swap :: after)
    (returns : swap.tokenOut ∈ seen ++ (before ++ [swap]).map Swap.tokenIn) :
    after = [] ∧ swap.tokenOut = first := by
  induction before generalizing swaps seen with
  | nil =>
    subst place
    have held : swap.tokenOut ∈ seen := by
      rcases mem_append.mp returns with held | taken
      · exact held
      · rw [show swap.tokenOut = swap.tokenIn by simpa using taken]
        exact started swap rfl
    rw [nil_append] at accepted
    unfold validateTokens at accepted
    rw [if_pos held] at accepted
    split at accepted
    · rename_i ends
      simpa using ends
    · cases accepted
  | cons head before ih =>
    subst place
    obtain ⟨next, rest, shape⟩ : ∃ next rest, before ++ swap :: after = next :: rest := by
      cases before with
      | nil => exact ⟨swap, after, rfl⟩
      | cons next before => exact ⟨next, before ++ swap :: after, rfl⟩
    rw [validateConnected_eq_ok_iff, cons_append, shape, isChain_cons_cons, ← shape,
      ← validateConnected_eq_ok_iff] at connected
    rw [cons_append] at accepted
    unfold validateTokens at accepted
    split at accepted
    · -- A repeated token is allowed at the end only, and this is not the end.
      simp [shape] at accepted
    · apply ih connected.2 accepted _ rfl
      · have taken : head.tokenIn ∈ seen := started head rfl
        simp only [cons_append, map_cons, mem_append, mem_cons] at returns ⊢
        rcases returns with held | here | later
        · exact .inr (.inl held)
        · exact .inr (.inl (here ▸ taken))
        · exact .inr (.inr later)
      · intro first here
        rw [shape, head?_cons, Option.mem_some_iff] at here
        subst here
        simp [connected.1]

end Checks

namespace Route

variable {display : Address → String} {displaySplit : Binary64 → String} {route : Route P}

/-- A route that is accepted has a first and a last swap, and passes the checks of its kind. -/
theorem validate_eq_ok (accepted : route.validate display displaySplit = .ok ()) :
    ∃ first last, route.swaps.head? = some first ∧ route.swaps.getLast? = some last ∧
      ((route.isSplit = true ∧
          validateSplitRoute display displaySplit route.swaps first last = .ok ()) ∨
        (route.isSplit = false ∧ validateSequentialRoute route.swaps first last = .ok ())) := by
  unfold validate at accepted
  split at accepted
  · rename_i first last starts ends
    refine ⟨first, last, starts, ends, ?_⟩
    split at accepted
    · rename_i split
      exact .inl ⟨split, accepted⟩
    · rename_i unsplit
      exact .inr ⟨by simpa using unsplit, accepted⟩
  · cases accepted

private theorem validateSplitRoute_eq_ok {swaps : List (Swap P)} {first last : Swap P}
    (accepted : validateSplitRoute display displaySplit swaps first last = .ok ()) :
    validateSplitAmounts display displaySplit (branchCollections Swap.tokenIn swaps) = .ok () ∧
      validateDeadEnds (branchCollections Swap.tokenIn swaps) last.tokenOut = .ok () ∧
        findCycle first.tokenIn last.tokenOut [] (branchCollections Swap.tokenIn swaps) =
          .ok () := by
  unfold validateSplitRoute at accepted
  obtain ⟨_, amounts, accepted⟩ := bind_eq_ok_iff.mp accepted
  obtain ⟨_, _, accepted⟩ := bind_eq_ok_iff.mp accepted
  obtain ⟨_, deadEnds, cycles⟩ := bind_eq_ok_iff.mp accepted
  unfold validateCycles at cycles
  split at cycles
  · cases cycles
  · exact ⟨amounts, deadEnds, cycles⟩

section

variable {before after : List (Swap P)} {swap : Swap P}
  (accepted : route.validate display displaySplit = .ok ())
  (place : route.swaps = before ++ swap :: after)
include accepted place

/-- The first swap to take its token pays no token that was taken before, but for the start of a
round trip. -/
theorem return_of_validate (leads : swap.tokenIn ∉ before.map Swap.tokenIn)
    (returns : swap.tokenOut ∈ (before ++ [swap]).map Swap.tokenIn) :
    route.inputToken = route.outputToken ∧ some swap.tokenOut = route.inputToken := by
  obtain ⟨first, last, starts, ends, ⟨_, split⟩ | ⟨_, sequential⟩⟩ := validate_eq_ok accepted
  · obtain ⟨_, _, cycles⟩ := validateSplitRoute_eq_ok split
    -- The collection of this swap comes right after those of the swaps before it.
    have collected := collected_branchCollections Swap.tokenIn before
    have leading := keys_branchCollections_prefix Swap.tokenIn (before ++ [swap]) after
    rw [branchCollections_append_singleton, keys_fileUnder, if_neg (mt (collected.keys _).mp leads),
      append_assoc, singleton_append, ← place] at leading
    obtain ⟨tail, keys⟩ := leading
    rw [append_assoc, singleton_append] at keys
    obtain ⟨earlier, rest, shape, places, behind⟩ := map_eq_append_iff.mp keys.symm
    obtain ⟨collection, later, rfl, key, _⟩ := map_eq_cons_iff.mp behind
    have filed := (collected_branchCollections Swap.tokenIn route.swaps).filed collection
      (shape ▸ by simp)
    have member : swap ∈ collection.2 := by
      rw [filed, key]
      simp [place]
    have returned := return_of_findCycle cycles shape member (by
      rw [nil_append, map_append, places, map_singleton, key]
      rw [map_append, mem_append, ← collected.keys] at returns
      exact mem_append.mpr returns)
    simp only [inputToken, outputToken, starts, ends, Option.map_some, Option.some.injEq]
    exact returned
  · obtain ⟨_, connected, tokens⟩ := bind_eq_ok_iff.mp sequential
    have returned := return_of_validateTokens connected tokens (by simp [starts]) place
      (mem_append_right _ returns)
    obtain ⟨rfl, first⟩ := returned
    have final : swap = last := by
      rw [place, getLast?_concat, Option.some.injEq] at ends
      exact ends
    simp only [inputToken, outputToken, starts, ends, Option.map_some, Option.some.injEq, ← final]
    exact ⟨first.symm, first⟩

theorem last_of_validate (trails : swap.tokenIn ∉ after.map Swap.tokenIn) :
    swap.split.gt 0 = false := by
  obtain ⟨first, last, starts, ends, ⟨_, split⟩ | ⟨unsplit, _⟩⟩ := validate_eq_ok accepted
  · obtain ⟨amounts, _, _⟩ := validateSplitRoute_eq_ok split
    have collected := collected_branchCollections Swap.tokenIn route.swaps
    have key : swap.tokenIn ∈ (branchCollections Swap.tokenIn route.swaps).map Prod.fst := by
      rw [collected.keys, place]
      simp
    obtain ⟨collection, member, same⟩ := mem_map.mp key
    have none : after.filter (fun other => other.tokenIn = swap.tokenIn) = [] := by
      rw [filter_eq_nil_iff]
      intro other later taken
      exact trails (mem_map.mpr ⟨other, later, of_decide_eq_true taken⟩)
    have final : collection.2.getLast? = some swap := by
      rw [collected.filed collection member, same, place, filter_append, filter_cons,
        if_pos (by simp), none]
      exact getLast?_concat
    exact Binary64.not_gt_of_eq (last_of_validateSplitAmounts amounts member final)
  · have every := any_eq_false.mp unsplit swap (by simp [place])
    simpa using every

end

theorem consumed_of_validate (accepted : route.validate display displaySplit = .ok ())
    {swap : Swap P} (member : swap ∈ route.swaps)
    (interior : some swap.tokenOut ≠ route.outputToken) :
    swap.tokenOut ∈ route.swaps.map Swap.tokenIn := by
  obtain ⟨first, last, starts, ends, ⟨_, split⟩ | ⟨_, sequential⟩⟩ := validate_eq_ok accepted
  all_goals simp only [outputToken, ends, Option.map_some, ne_eq, Option.some.injEq] at interior
  · obtain ⟨_, deadEnds, _⟩ := validateSplitRoute_eq_ok split
    have collected := collected_branchCollections Swap.tokenIn route.swaps
    have key := (collected.keys swap.tokenIn).mpr (mem_map_of_mem member)
    obtain ⟨collection, listed, same⟩ := mem_map.mp key
    rw [← collected.keys]
    apply mem_keys_of_validateDeadEnds deadEnds listed _ interior
    rw [collected.filed collection listed, mem_filter]
    exact ⟨member, by simp [same]⟩
  · obtain ⟨_, connected, _⟩ := bind_eq_ok_iff.mp sequential
    exact consumed_of_validateConnected connected ends member interior

end Route

end Fynd
