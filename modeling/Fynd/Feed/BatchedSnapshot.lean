import Fynd.Feed.MarketData

/-!
# Snapshots taken in batches

A subset of many components is cloned in batches, with the lock released between them. The
clone starts over when a batch finds another label than the first one, and after three
attempts everything is cloned under one lock.
-/

namespace Fynd

open Foundation List

variable {P : Type}

/-- Lists of at most a number of elements, one after another. -/
def chunks {α : Type} (size : Nat) : Nat → List α → List (List α)
  | 0, _ => []
  | _ + 1, [] => []
  | fuel + 1, first :: rest =>
    (first :: rest).take size :: chunks size fuel ((first :: rest).drop size)

private theorem flatten_chunks {α : Type} {size fuel : Nat} (positive : 0 < size) {list : List α}
    (enough : list.length ≤ fuel) : (chunks size fuel list).flatten = list := by
  induction fuel generalizing list with
  | zero =>
    rw [length_eq_zero_iff.mp (Nat.le_zero.mp enough)]
    rfl
  | succ fuel ih =>
    cases list with
    | nil => rfl
    | cons first rest =>
      rw [chunks, flatten_cons, ih, take_append_drop]
      rw [length_drop]
      omega

namespace MarketState

/-- Absorbs another subset of the same base state, keeping this one's metadata. -/
def mergeSubset (market other : MarketState P) : MarketState P :=
  { market with
    components := other.components ∪ market.components
    simulationStates := other.simulationStates ∪ market.simulationStates
    tokens := other.tokens ∪ market.tokens }

section Batches

variable (reading : Nat → MarketState P)

/-- One attempt, with the market as each acquisition of the lock reads it: how often the lock was
acquired, and the merged snapshot unless a batch found another label. -/
def mergeBatches : Nat → Option (MarketState P) → List (List ComponentId) →
    Nat × Option (MarketState P)
  | clock, merged, [] => (clock, some (merged.getD .new))
  | clock, none, chunk :: rest =>
    mergeBatches (clock + 1) (some ((reading clock).extractSubset chunk)) rest
  | clock, some snapshot, chunk :: rest =>
    let part := (reading clock).extractSubset chunk
    if part.label ≠ snapshot.label then (clock + 1, none)
    else mergeBatches (clock + 1) (some (snapshot.mergeSubset part)) rest

/-- Some attempts, and one lock for everything if they all fail. -/
def attemptBatches (ids : List ComponentId) (batches : List (List ComponentId)) :
    Nat → Nat → Nat × MarketState P
  | 0, clock => (clock + 1, (reading clock).extractSubset ids)
  | attempts + 1, clock =>
    match mergeBatches reading clock none batches with
    | (next, some snapshot) => (next, snapshot)
    | (next, none) => attemptBatches ids batches attempts next

/-- The subset of the ids, cloned in batches of a size. -/
def extractSubsetInBatches (ids : List ComponentId) (batchSize : Nat) : Nat × MarketState P :=
  if ids.isEmpty then (1, (reading 0).extractSubset ids)
  else attemptBatches reading ids (chunks batchSize ids.length ids) 3 0

def extractSubsetBatched (ids : List ComponentId) : Nat × MarketState P :=
  extractSubsetInBatches reading ids 512

end Batches

/-! ## What a call may find -/

section Readings

variable (reading : Nat → MarketState P)
  (between : Nat → MarketState P → Prop) (batches : List (List ComponentId))

/-- A market that existed up to an acquisition of the lock: found by one, or between two. -/
def Existed (last : Nat) (market : MarketState P) : Prop :=
  ∃ time ≤ last, market = reading time ∨ time < last ∧ between time market

/-- An attempt is interrupted: the market has another label than at its start when one of its later
batches reads it, and had the same label until then. -/
structure Interrupted (start found : Nat) : Prop where
  later : start < found
  inside : found < start + batches.length
  alike : ∀ time, start < time → time < found → (reading time).label = (reading start).label
  differs : (reading found).label ≠ (reading start).label

/-- Each batch of an attempt reads what one market of the call has for it. The ids of the later
batches, which the index of a merged snapshot leaves out, are not held by that market. -/
structure Undisturbed (start : Nat) (market : MarketState P) : Prop where
  existed : Existed reading between (start + batches.tail.length) market
  same : ∀ step (inside : step < batches.length),
    (reading (start + step)).extractSubset batches[step] = market.extractSubset batches[step]
  unheld : ∀ id ∈ batches.tail.flatten, market.components.lookup id = none

/-- Attempts of which each is interrupted, up to an undisturbed one or up to the fallback. -/
inductive Settles : Nat → Nat → Prop
  | fallback (start : Nat) : Settles 0 start
  | interrupted {attempts start found : Nat} (cut : Interrupted reading batches start found)
      (again : Settles attempts (found + 1)) : Settles (attempts + 1) start
  | undisturbed {attempts start : Nat} {market : MarketState P}
      (calm : Undisturbed reading between batches start market) : Settles (attempts + 1) start

end Readings

/-! ## The same data -/

/-- The same data, up to the order of maps and up to the index by protocol. -/
structure SameButIndex (left right : MarketState P) : Prop where
  components : ∀ id, left.components.lookup id = right.components.lookup id
  simulationStates : ∀ id, left.simulationStates.lookup id = right.simulationStates.lookup id
  tokens : ∀ address, left.tokens.lookup address = right.tokens.lookup address
  gasPrice : left.gasPrice = right.gasPrice
  label : left.label = right.label
  protocolSyncStatus : ∀ system,
    left.protocolSyncStatus.lookup system = right.protocolSyncStatus.lookup system
  lastUpdated : left.lastUpdated = right.lastUpdated
  unsyncedProtocols : left.unsyncedProtocols = right.unsyncedProtocols
  unsyncedPools : left.unsyncedPools = right.unsyncedPools
  constraintGeneration : left.constraintGeneration = right.constraintGeneration

/-- The same data, up to the order of maps. -/
structure Same (left right : MarketState P) : Prop extends SameButIndex left right where
  componentsByProtocol : ∀ system,
    left.componentsByProtocol.lookup system = right.componentsByProtocol.lookup system

private theorem Same.refl (market : MarketState P) : Same market market :=
  ⟨⟨fun _ => rfl, fun _ => rfl, fun _ => rfl, rfl, rfl, fun _ => rfl, rfl, rfl, rfl, rfl⟩,
    fun _ => rfl⟩

/-! ## What batches of one market add up to -/

/-- Whether a component among some ids holds a token. -/
def Holds (market : MarketState P) (ids : List ComponentId) (address : Address) : Prop :=
  ∃ id ∈ ids, ∃ stored, market.components.lookup id = some stored ∧
    address ∈ stored.component.tokens

/-- A snapshot has what one market holds for some ids, and the index of the first batch. -/
structure Gathered (market : MarketState P) (first ids : List ComponentId)
    (snapshot : MarketState P) : Prop where
  components : ∀ id, snapshot.components.lookup id =
    if id ∈ ids then market.components.lookup id else none
  simulationStates : ∀ id, snapshot.simulationStates.lookup id =
    if id ∈ ids then market.simulationStates.lookup id else none
  held : ∀ address, market.Holds ids address →
    snapshot.tokens.lookup address = market.tokens.lookup address
  unheld : ∀ address, ¬ market.Holds ids address → snapshot.tokens.lookup address = none
  gasPrice : snapshot.gasPrice = market.gasPrice
  label : snapshot.label = market.label
  protocolSyncStatus : snapshot.protocolSyncStatus = ∅
  lastUpdated : snapshot.lastUpdated = market.lastUpdated
  unsyncedProtocols : snapshot.unsyncedProtocols = market.unsyncedProtocols
  unsyncedPools : snapshot.unsyncedPools = market.unsyncedPools
  constraintGeneration : snapshot.constraintGeneration = market.constraintGeneration
  componentsByProtocol :
    snapshot.componentsByProtocol = indexByProtocol (restrictMap first market.components)

variable {market : MarketState P} {ids : List ComponentId} {snapshot : MarketState P}
  {first : List ComponentId} {reading : Nat → MarketState P}

private theorem mem_tokens_iff_holds {address : Address} :
    (address ∈ (restrictMap ids market.components).entries.flatMap fun entry =>
      entry.2.component.tokens) ↔ market.Holds ids address := by
  rw [mem_flatMap]
  constructor
  · rintro ⟨⟨id, stored⟩, member, token⟩
    have found := lookup_eq_some_iff.mpr member
    rw [lookup_restrictMap] at found
    split at found
    · exact ⟨id, by assumption, stored, found, token⟩
    · cases found
  · rintro ⟨id, member, stored, found, token⟩
    refine ⟨⟨id, stored⟩, lookup_eq_some_iff.mp ?_, token⟩
    rw [lookup_restrictMap, if_pos member, found]

private theorem gathered_extractSubset (market : MarketState P) (ids : List ComponentId) :
    Gathered market ids ids (market.extractSubset ids) where
  components := lookup_restrictMap ids market.components
  simulationStates := lookup_restrictMap ids market.simulationStates
  held := by
    intro address holds
    exact (lookup_restrictMap _ _ _).trans (if_pos (mem_tokens_iff_holds.mpr holds))
  unheld := by
    intro address none
    exact (lookup_restrictMap _ _ _).trans (if_neg (mt mem_tokens_iff_holds.mp none))
  gasPrice := rfl
  label := rfl
  protocolSyncStatus := rfl
  lastUpdated := rfl
  unsyncedProtocols := rfl
  unsyncedPools := rfl
  constraintGeneration := rfl
  componentsByProtocol := rfl

private theorem lookup_merged {K V : Type} [DecidableEq K] {map part snapshot : Map K V}
    {keys earlier : List K}
    (new : ∀ key, part.lookup key = if key ∈ keys then map.lookup key else none)
    (old : ∀ key, snapshot.lookup key = if key ∈ earlier then map.lookup key else none) (key : K) :
    (part ∪ snapshot).lookup key = if key ∈ earlier ++ keys then map.lookup key else none := by
  rw [lookup_union_or, new, old]
  by_cases now : key ∈ keys <;> by_cases before : key ∈ earlier <;> simp [now, before]

section

variable (gathered : Gathered market first ids snapshot)
include gathered

/-- Another batch of the same market. -/
theorem Gathered.merge (chunk : List ComponentId) :
    Gathered market first (ids ++ chunk) (snapshot.mergeSubset (market.extractSubset chunk)) := by
  have part := gathered_extractSubset market chunk
  have either : ∀ address, market.Holds (ids ++ chunk) address ↔
      market.Holds ids address ∨ market.Holds chunk address := by
    intro address
    simp only [Holds, mem_append, or_and_right, exists_or]
  refine
    { gathered with
      components := lookup_merged part.components gathered.components
      simulationStates := lookup_merged part.simulationStates gathered.simulationStates
      held := fun address holds => ?_
      unheld := fun address none => ?_ }
  · refine (lookup_union_or _ _ _).trans ?_
    by_cases now : market.Holds chunk address
    · rw [part.held address now]
      by_cases before : market.Holds ids address
      · rw [gathered.held address before, Option.or_self]
      · rw [gathered.unheld address before, Option.or_none]
    · have before := ((either address).mp holds).resolve_right now
      rw [part.unheld address now, gathered.held address before, Option.none_or]
  · obtain ⟨before, now⟩ := not_or.mp (mt (either address).mpr none)
    refine (lookup_union_or _ _ _).trans ?_
    rw [part.unheld address now, gathered.unheld address before]
    rfl

/-- A snapshot that gathered the ids has the data of the subset. -/
theorem Gathered.sameButIndex : SameButIndex snapshot (market.extractSubset ids) := by
  have whole := gathered_extractSubset market ids
  refine ⟨fun id => ?_, fun id => ?_, fun address => ?_, gathered.gasPrice, gathered.label,
    fun system => ?_, gathered.lastUpdated, gathered.unsyncedProtocols, gathered.unsyncedPools,
    gathered.constraintGeneration⟩
  · rw [gathered.components, whole.components]
  · rw [gathered.simulationStates, whole.simulationStates]
  · by_cases holds : market.Holds ids address
    · rw [gathered.held address holds, whole.held address holds]
    · rw [gathered.unheld address holds, whole.unheld address holds]
  · rw [gathered.protocolSyncStatus, whole.protocolSyncStatus]

/-- It has the index as well if the first batch has all the components. -/
theorem Gathered.same {later : List ComponentId} (split : first ++ later = ids)
    (unheld : ∀ id ∈ later, market.components.lookup id = none) :
    Same snapshot (market.extractSubset ids) := by
  refine ⟨gathered.sameButIndex, fun system => ?_⟩
  rw [gathered.componentsByProtocol, ← restrictMap_append unheld first, split]
  rfl

/-- Batches that all read what one market has for them are merged, and gather it. -/
theorem Gathered.mergeBatches {clock : Nat} {rest : List (List ComponentId)}
    (same : ∀ step (inside : step < rest.length),
      (reading (clock + step)).extractSubset rest[step] = market.extractSubset rest[step]) :
    ∃ taken, mergeBatches reading clock (some snapshot) rest = (clock + rest.length, some taken) ∧
      Gathered market first (ids ++ rest.flatten) taken := by
  induction rest generalizing clock ids snapshot with
  | nil => exact ⟨snapshot, rfl, by rwa [flatten_nil, append_nil]⟩
  | cons chunk rest ih =>
    have here : (reading clock).extractSubset chunk = market.extractSubset chunk :=
      same 0 (Nat.zero_lt_succ _)
    obtain ⟨taken, merged, whole⟩ := @ih _ _ (gathered.merge chunk) (clock + 1)
      fun step inside => by
        rw [Nat.add_right_comm]
        exact same (step + 1) (Nat.succ_lt_succ inside)
    refine ⟨taken, ?_, by rwa [flatten_cons, ← append_assoc]⟩
    have unchanged : (market.extractSubset chunk).label = snapshot.label := gathered.label.symm
    rw [MarketState.mergeBatches, here, if_neg (not_not.mpr unchanged), merged, length_cons,
      Nat.add_right_comm, Nat.add_assoc]

end

/-- Batches are given up where the label is another one for the first time. -/
theorem mergeBatches_of_differs {clock found : Nat} {rest : List (List ComponentId)}
    (later : clock ≤ found) (inside : found < clock + rest.length)
    (alike : ∀ time, clock ≤ time → time < found → (reading time).label = snapshot.label)
    (differs : (reading found).label ≠ snapshot.label) :
    mergeBatches reading clock (some snapshot) rest = (found + 1, none) := by
  induction rest generalizing clock snapshot with
  | nil => exact absurd inside (Nat.not_lt.mpr later)
  | cons chunk rest ih =>
    rw [mergeBatches]
    obtain rfl | after := Nat.eq_or_lt_of_le later
    · exact if_pos differs
    · have unchanged : ((reading clock).extractSubset chunk).label = snapshot.label :=
        alike clock (Nat.le_refl _) after
      rw [if_neg (not_not.mpr unchanged)]
      exact ih after (by rw [length_cons] at inside; omega)
        (fun time since => alike time (Nat.le_of_succ_le since)) differs

variable {between : Nat → MarketState P → Prop}

/-- What attempts that settle return is the subset of a market of the call. -/
theorem Settles.real {rest : List (List ComponentId)} {attempts clock : Nat}
    (settles : Settles reading between (first :: rest) attempts clock) :
    let ids := first ++ rest.flatten
    let taken := attemptBatches reading ids (first :: rest) attempts clock
    ∃ last, last + 1 = taken.1 ∧ ∃ market, Existed reading between last market ∧
      Same taken.2 (market.extractSubset ids) := by
  induction settles with
  | fallback clock => exact ⟨clock, rfl, _, ⟨clock, Nat.le_refl _, .inl rfl⟩, .refl _⟩
  | @interrupted attempts clock found cut _ ih =>
    intro ids taken
    have inside : found < clock + 1 + rest.length := by
      simpa [Nat.add_comm, Nat.add_left_comm] using cut.inside
    have given :
        mergeBatches reading (clock + 1) (some ((reading clock).extractSubset first)) rest =
          (found + 1, none) :=
      mergeBatches_of_differs cut.later inside cut.alike cut.differs
    have restarted : taken = attemptBatches reading ids (first :: rest) attempts (found + 1) := by
      simp only [taken, attemptBatches, mergeBatches, given]
    rw [restarted]
    exact ih
  | @undisturbed attempts clock market calm =>
    intro ids taken
    have began : (reading clock).extractSubset first = market.extractSubset first :=
      calm.same 0 (Nat.zero_lt_succ _)
    have later : ∀ step (inside : step < rest.length),
        (reading (clock + 1 + step)).extractSubset rest[step] =
          market.extractSubset rest[step] := by
      intro step inside
      rw [Nat.add_right_comm]
      exact calm.same (step + 1) (Nat.succ_lt_succ inside)
    obtain ⟨snapshot, merged, gathered⟩ :=
      (gathered_extractSubset market first).mergeBatches later
    have done : taken = (clock + 1 + rest.length, snapshot) := by
      simp only [taken, attemptBatches, mergeBatches, began, merged]
    rw [done]
    exact ⟨clock + rest.length, Nat.add_right_comm _ _ _, market, calm.existed,
      gathered.same rfl calm.unheld⟩

/-- The batched subset is that of a market of the call, if the attempts settle. -/
theorem extractSubsetInBatches_real {batchSize : Nat} (positive : 0 < batchSize)
    (settles : Settles reading between (chunks batchSize ids.length ids) 3 0) :
    let taken := extractSubsetInBatches reading ids batchSize
    ∃ last, last + 1 = taken.1 ∧ ∃ market, Existed reading between last market ∧
      Same taken.2 (market.extractSubset ids) := by
  cases ids with
  | nil => exact ⟨0, rfl, _, ⟨0, Nat.le_refl _, .inl rfl⟩, .refl _⟩
  | cons head tail =>
    have late : (chunks batchSize tail.length ((head :: tail).drop batchSize)).flatten =
        (head :: tail).drop batchSize := by
      apply flatten_chunks positive
      rw [length_drop, length_cons]
      omega
    have real := Settles.real settles
    rwa [late, take_append_drop] at real

end MarketState

/-! ## Messages that arrive between batches -/

namespace MarketData

section Arrivals

variable (decode : DirectionsDecoder) (maxSyncLag : Duration)
  (market : MarketData P) (arrivals : Nat → List (FeedMessage P))

/-- The market as each acquisition of the lock finds it: some messages are handled between one and
the next. -/
def reading : Nat → MarketData P
  | 0 => market
  | time + 1 => (reading time).handleAll decode maxSyncLag (arrivals time)

/-- The batched snapshot of some ids, and how often the lock was acquired for it. -/
def snapshot (ids : List ComponentId) : Nat × MarketState P :=
  MarketState.extractSubsetBatched
    (fun time => (reading decode maxSyncLag market arrivals time).data) ids

/-- The snapshot is the subset of one market that existed between the first and the last
acquisition of the lock. -/
def RealSnapshot (ids : List ComponentId) : Prop :=
  let taken := snapshot decode maxSyncLag market arrivals ids
  ∃ time < taken.1, ∃ seen, seen <+: arrivals time ∧ (time + 1 = taken.1 → seen = []) ∧
    MarketState.Same taken.2 (((reading decode maxSyncLag market arrivals time).handleAll decode
      maxSyncLag seen).data.extractSubset ids)

/-- A market between two acquisitions, with some of the messages handled. -/
def Between (time : Nat) (found : MarketState P) : Prop :=
  ∃ seen, seen <+: arrivals time ∧
    found = ((reading decode maxSyncLag market arrivals time).handleAll decode maxSyncLag seen).data

/-- The attempts of the call for some ids are interrupted, up to one whose batches all read what one
market of the call has for them, or up to the fallback. -/
def Batchable (ids : List ComponentId) : Prop :=
  MarketState.Settles (fun time => (reading decode maxSyncLag market arrivals time).data)
    (Between decode maxSyncLag market arrivals) (chunks 512 ids.length ids) 3 0

end Arrivals

/-- **A batched snapshot is a real market state.** Whatever arrives between the batches, it is the
subset of one market that existed during the call, if every attempt but the last is seen to be
interrupted and the last is undisturbed or the fallback. -/
theorem realSnapshot_of_batchable (decode : DirectionsDecoder)
    (maxSyncLag : Duration) (market : MarketData P) (arrivals : Nat → List (FeedMessage P))
    (ids : List ComponentId) (batchable : Batchable decode maxSyncLag market arrivals ids) :
    RealSnapshot decode maxSyncLag market arrivals ids := by
  obtain ⟨last, count, found, ⟨time, during, equal | ⟨earlier, seen, early, equal⟩⟩, same⟩ :=
    MarketState.extractSubsetInBatches_real (Nat.zero_lt_succ 511) batchable
  · subst equal
    exact ⟨time, count ▸ Nat.lt_succ_of_le during, [], nil_prefix, fun _ => rfl, same⟩
  · subst equal
    refine ⟨time, count ▸ Nat.lt_succ_of_le during, seen, early, fun final => ?_, same⟩
    have ends : time + 1 = last + 1 := final.trans count.symm
    omega

section Samples

def venuePool (id : ComponentId) : FeedComponent := ⟨id, "rfq:venue", [⟨0, 18⟩, ⟨1, 18⟩], ∅⟩

/-- A book of two pools, both in the same state. -/
def venueBook (state : Nat) : BookUpdate Nat :=
  ⟨"rfq:venue", [], [], [venuePool "x", venuePool "y"], [("x", state), ("y", state)]⟩

def venueMarket : MarketData Nat := newShared.handle (fun _ => none) 0 (.book (venueBook 0))

/-- Two ids with so many unknown ones between them that they are in two batches. -/
def spreadIds : List ComponentId :=
  "x" :: (List.range 511).map (fun number => toString number) ++ ["y"]

/-- The second book arrives after the first batch. -/
def secondBook : Nat → List (FeedMessage Nat)
  | 0 => [.book (venueBook 1)]
  | _ => []

/-- The next block arrives after the first batch of each of some attempts. -/
def blocksDuring (attempts : Nat) (time : Nat) : List (FeedMessage Nat) :=
  if time % 2 = 0 ∧ time < 2 * attempts then [.update .protocol ⟨[], [], [], time + 1, []⟩] else []

/-- A held id in the first batch and an absent one in the second. -/
def absentLast : List ComponentId := "x" :: (List.range 512).map fun number => toString number

/-- Calls of two batches: with a block during each attempt, which ends in the fallback, and with one
during the first attempt only, after which the second one is undisturbed. -/
theorem restarted_calls_real :
    RealSnapshot (fun _ => none) 0 venueMarket (blocksDuring 3) spreadIds ∧
      RealSnapshot (fun _ => none) 0 venueMarket (blocksDuring 1) absentLast := by
  constructor
  · apply realSnapshot_of_batchable
    exact .interrupted ⟨Nat.lt_succ_self 0, by decide +kernel, fun time _ _ => by omega,
        by decide +kernel⟩ <|
      .interrupted ⟨Nat.lt_succ_self 2, by decide +kernel, fun time _ _ => by omega,
        by decide +kernel⟩ <|
      .interrupted ⟨Nat.lt_succ_self 4, by decide +kernel, fun time _ _ => by omega,
        by decide +kernel⟩ (.fallback 6)
  · apply realSnapshot_of_batchable
    refine .interrupted ⟨Nat.lt_succ_self 0, by decide +kernel, fun time _ _ => by omega,
      by decide +kernel⟩ (.undisturbed ⟨⟨2, by decide +kernel, .inl rfl⟩, ?_, by decide +kernel⟩)
    intro step inside
    have two : step < 2 := Nat.lt_of_lt_of_eq inside (by decide +kernel)
    obtain rfl | rfl : step = 0 ∨ step = 1 := by omega
    · rfl
    · rfl

def stateIn (taken : Nat × MarketState Nat) (id : ComponentId) : Option Nat :=
  taken.2.simulationStates.lookup id

/-- The book changes no label, and the snapshot has one pool from each of the two markets. -/
theorem book_between_batches_unnoticed :
    ¬ RealSnapshot (fun _ => none) 0 venueMarket secondBook spreadIds := by
  obtain ⟨old, new, reads⟩ :
      stateIn (snapshot (fun _ => none) 0 venueMarket secondBook spreadIds) "x" = some 0 ∧
      stateIn (snapshot (fun _ => none) 0 venueMarket secondBook spreadIds) "y" = some 1 ∧
      (snapshot (fun _ => none) 0 venueMarket secondBook spreadIds).1 = 2 := by decide +kernel
  unfold RealSnapshot
  generalize snapshot (fun _ => none) 0 venueMarket secondBook spreadIds = taken at old new reads ⊢
  rintro ⟨time, before, seen, early, _, same⟩
  -- Every market of the call has the two pools in one state.
  have alike : ∀ found : MarketData Nat,
      found.data.simulationStates.lookup "x" = found.data.simulationStates.lookup "y" →
      ¬ MarketState.Same taken.2 (found.data.extractSubset spreadIds) := by
    intro found alike same
    have first := same.simulationStates "x"
    have second := same.simulationStates "y"
    rw [(MarketState.gathered_extractSubset _ _).simulationStates, if_pos (by decide +kernel)]
      at first second
    have equal : some 0 = some 1 :=
      old.symm.trans (first.trans (alike.trans (second.symm.trans new)))
    cases equal
  refine alike _ ?_ same
  have twice : time = 0 ∨ time = 1 := by omega
  rcases twice with rfl | rfl
  · rcases prefix_cons_iff.mp early with rfl | ⟨rest, rfl, after⟩
    · decide +kernel
    · rw [prefix_nil.mp after]
      decide +kernel
  · rw [prefix_nil.mp early]
    decide +kernel

end Samples

end MarketData

end Fynd
