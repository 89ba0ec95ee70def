import Fynd.Feed.ComponentFilter
import Fynd.Feed.MarketData
import Fynd.Types.Route

/-!
# The indexes of the market and the constraints resolved from them

The market keeps the components of each protocol system and the pools of the systems that
are out of sync, and updates both as it is written. A request resolves its route filter from
them once, and again only when the market's constraint generation changed.
-/

namespace Fynd

open Foundation List

variable {P : Type}

/-- What a request names to keep out of a route and the tokens a route must pass through. -/
structure RouteConstraints where
  excludedPools : Finset ComponentId
  excludedProtocols : Finset String
  excludedTokens : Finset Address
  requiredTokens : Finset Address

/-- Everything in some of the sets. -/
def unionOf (sets : List (Finset ComponentId)) : Finset ComponentId := sets.foldl (· ∪ ·) ∅

private theorem mem_unionOf {sets : List (Finset ComponentId)} {id : ComponentId} :
    id ∈ unionOf sets ↔ ∃ ids ∈ sets, id ∈ ids := by
  unfold unionOf
  induction sets using List.reverseRecOn with
  | nil => simp
  | append_singleton earlier ids ih =>
    rw [foldl_concat, Finset.mem_union, ih]
    simp [or_and_right, exists_or]

namespace MarketState

/-- The pools that an entry of a filter excludes: those of one system, or of a family. -/
def poolsOfEntry (market : MarketState P) (entry : String) : Finset ComponentId :=
  if entry.endsWith ":" then
    unionOf ((market.componentsByProtocol.entries.filter fun indexed =>
      protocolMatches entry indexed.1).map Sigma.snd)
  else market.componentsOfProtocol entry

/-- The pools and tokens a filter excludes, with each protocol system replaced by the components
the market holds for it. -/
def resolveRouteFilter (market : MarketState P) (filter : RouteConstraints) :
    ResolvedRouteConstraints where
  excludedPools := filter.excludedPools ∪ filter.excludedProtocols.biUnion market.poolsOfEntry
  excludedTokens := filter.excludedTokens
  requiredTokens := filter.requiredTokens
  unsyncedPools := market.unsyncedPools

end MarketState

/-- The constraints of a request with the generation they were resolved at. -/
abbrev ConstraintCache := Option (UInt64 × ResolvedRouteConstraints)

/-- The constraints of a request, resolved anew if the generation is another than the cached
one. -/
def resolveConstraints (market : MarketState P) (filter : RouteConstraints)
    (cache : ConstraintCache) : ResolvedRouteConstraints × ConstraintCache :=
  match cache.filter (·.1 = market.constraintGeneration) with
  | some (_, constraints) => (constraints, cache)
  | none =>
    let constraints := market.resolveRouteFilter filter
    (constraints, some (market.constraintGeneration, constraints))

/-- A call that writes the market. -/
inductive MarketCall (P : Type)
  | upsertComponents (components : List ProtocolComponent)
  | removeComponents (ids : List ComponentId)
  | updateStates (states : List (ComponentId × P))
  | updateSyncStatus (syncStates : List (String × SynchronizerState)) (maxSyncLag : Duration)

namespace MarketState

/-- Makes a call. -/
def apply (decode : DirectionsDecoder) (market : MarketState P) :
    MarketCall P → MarketState P
  | .upsertComponents components => (market.upsertComponents decode components).1
  | .removeComponents ids => market.removeComponents ids
  | .updateStates states => market.updateStates states
  | .updateSyncStatus syncStates maxSyncLag => market.updateSyncStatus syncStates maxSyncLag

/-- The protocol system an id is stored under. -/
def systemAt (market : MarketState P) (id : ComponentId) : Option String :=
  (market.components.lookup id).map fun stored => stored.component.protocolSystem

/-- The indexes are exact. -/
structure Indexed (market : MarketState P) : Prop where
  byProtocol : ∀ system id,
    id ∈ market.componentsOfProtocol system ↔ market.systemAt id = some system
  unsynced : ∀ id,
    id ∈ market.unsyncedPools ↔
      ∃ system ∈ market.unsyncedProtocols, market.systemAt id = some system

/-! ## What one component changes -/

section Writes

variable (decode : DirectionsDecoder) {market : MarketState P}

variable (gone : ComponentId) (found : UpsertedComponents) (component : ProtocolComponent)
  (system : String) (id : ComponentId)

private theorem systemAt_upsertComponent :
    (upsertComponent decode (market, found) component).1.systemAt id =
      if id = component.id then some component.protocolSystem else market.systemAt id := by
  rw [systemAt, lookup_upsertComponent]
  split <;> rfl

private theorem systemAt_removeComponent :
    (market.removeComponent gone).systemAt id = if id = gone then none else market.systemAt id := by
  change ((market.components.erase gone).lookup id).map _ = _
  rw [lookup_erase_ite]
  split <;> rfl

private theorem mem_componentsOfProtocol_upsertComponent :
    id ∈ (upsertComponent decode (market, found) component).1.componentsOfProtocol system ↔
      (system = component.protocolSystem ∧ id = component.id) ∨
        id ∈ market.componentsOfProtocol system := by
  have index : (upsertComponent decode (market, found) component).1.componentsByProtocol =
      indexComponent market.componentsByProtocol component.protocolSystem component.id := by
    unfold upsertComponent noteStored
    dsimp only
    split <;> rfl
  rw [componentsOfProtocol, index, indexComponent, lookup_insert_ite]
  split
  · rename_i same
    subst same
    simp [componentsOfProtocol]
  · rename_i differs
    simp [componentsOfProtocol, differs]

@[simp] theorem unsyncedProtocols_upsertComponent :
    (upsertComponent decode (market, found) component).1.unsyncedProtocols =
      market.unsyncedProtocols := by
  unfold upsertComponent noteStored
  dsimp only
  split <;> rfl

private theorem unsyncedPools_upsertComponent :
    (upsertComponent decode (market, found) component).1.unsyncedPools =
      if market.systemAt component.id = none ∧
          component.protocolSystem ∈ market.unsyncedProtocols then
        insert component.id market.unsyncedPools
      else market.unsyncedPools := by
  unfold upsertComponent noteStored systemAt
  dsimp only
  cases market.components.lookup component.id <;> simp

private theorem constraintGeneration_upsertComponent :
    (upsertComponent decode (market, found) component).1.constraintGeneration =
      if market.systemAt component.id = none then market.constraintGeneration + 1
      else market.constraintGeneration := by
  unfold upsertComponent noteStored systemAt
  dsimp only
  cases market.components.lookup component.id <;> simp

private theorem mem_componentsOfProtocol_removeComponent :
    id ∈ (market.removeComponent gone).componentsOfProtocol system ↔
      id ∈ market.componentsOfProtocol system ∧
        (market.systemAt gone = some system → id ≠ gone) := by
  unfold removeComponent noteRemoved systemAt componentsOfProtocol
  cases market.components.lookup gone with
  | none => simp
  | some stored =>
    cases indexed : market.componentsByProtocol.lookup stored.component.protocolSystem with
    | none =>
      simp only [Option.elim_some, indexed, Option.map_some, Option.some.injEq]
      refine ⟨fun member => ⟨member, fun same => ?_⟩, And.left⟩
      rw [← same, indexed] at member
      simp at member
    | some ids =>
      simp only [Option.elim_some, indexed, Option.map_some, Option.some.injEq,
        lookup_insert_ite]
      by_cases same : system = stored.component.protocolSystem
      · subst same
        simp [indexed, and_comm]
      · simp [same, Ne.symm same]

@[simp] theorem unsyncedProtocols_removeComponent :
    (market.removeComponent gone).unsyncedProtocols = market.unsyncedProtocols := by
  unfold removeComponent noteRemoved
  cases market.components.lookup gone <;> rfl

private theorem mem_unsyncedPools_removeComponent :
    id ∈ (market.removeComponent gone).unsyncedPools ↔
      id ∈ market.unsyncedPools ∧ (market.systemAt gone ≠ none → id ≠ gone) := by
  unfold removeComponent noteRemoved systemAt
  cases market.components.lookup gone <;> simp [and_comm]

private theorem constraintGeneration_removeComponent :
    (market.removeComponent gone).constraintGeneration =
      if market.systemAt gone ≠ none then market.constraintGeneration + 1
      else market.constraintGeneration := by
  unfold removeComponent noteRemoved systemAt
  cases market.components.lookup gone <;> simp

/-! ## What a call keeps -/

/-- The generation as a number. -/
def generation (market : MarketState P) : Nat := market.constraintGeneration.toNat

/-- Several changes later, at most as many as given: the indexes are exact, and if the generation is
the same then so is everything that constraints are resolved from. -/
structure Follows (changes : Nat) (before after : MarketState P) : Prop where
  indexed : after.Indexed
  mono : before.generation ≤ after.generation
  bounded : after.generation ≤ before.generation + changes
  same : after.generation = before.generation →
    (∀ id, after.systemAt id = before.systemAt id) ∧
      after.unsyncedProtocols = before.unsyncedProtocols

private theorem Indexed.follows (indexed : market.Indexed) : Follows 0 market market :=
  ⟨indexed, Nat.le_refl _, Nat.le_refl _, fun _ => ⟨fun _ => rfl, rfl⟩⟩

private theorem Follows.trans {first second : Nat} {before middle after : MarketState P}
    (left : Follows first before middle) (right : Follows second middle after) :
    Follows (first + second) before after where
  indexed := right.indexed
  mono := left.mono.trans right.mono
  bounded := by
    have one := left.bounded
    have two := right.bounded
    omega
  same := by
    intro equal
    have one := left.mono
    have two := right.mono
    obtain ⟨systems, unsynced⟩ := left.same (by omega)
    obtain ⟨systems', unsynced'⟩ := right.same (by omega)
    exact ⟨fun id => (systems' id).trans (systems id), unsynced'.trans unsynced⟩

private theorem toNat_succ {counter : UInt64} (room : counter.toNat + 1 < 2 ^ 64) :
    (counter + 1).toNat = counter.toNat + 1 := by
  rw [UInt64.toNat_add]
  exact Nat.mod_eq_of_lt room

private theorem Indexed.upsertComponent (indexed : market.Indexed) (found : UpsertedComponents)
    {component : ProtocolComponent}
    (keeps : ∀ system ∈ market.systemAt component.id, system = component.protocolSystem) :
    (upsertComponent decode (market, found) component).1.Indexed := by
  constructor
  · intro system id
    rw [mem_componentsOfProtocol_upsertComponent, systemAt_upsertComponent, indexed.byProtocol]
    split
    · rename_i same
      subst same
      rw [Option.some.injEq]
      constructor
      · rintro (⟨here, _⟩ | held)
        · exact here.symm
        · exact (keeps system held).symm
      · intro here
        exact .inl ⟨here.symm, rfl⟩
    · rename_i differs
      simp [differs]
  · intro id
    rw [unsyncedPools_upsertComponent, unsyncedProtocols_upsertComponent, systemAt_upsertComponent]
    have before := indexed.unsynced id
    by_cases same : id = component.id
    · subst same
      cases held : market.systemAt component.id with
      | none =>
        rw [held] at before
        by_cases out : component.protocolSystem ∈ market.unsyncedProtocols
        · simp [out]
        · simp [out, before]
      | some system =>
        obtain rfl := keeps system held
        simp [before, held]
    · rw [if_neg same, ← before]
      split
      · simp [same]
      · rfl

private theorem Indexed.removeComponent (indexed : market.Indexed) (gone : ComponentId) :
    (market.removeComponent gone).Indexed := by
  constructor
  · intro system id
    rw [mem_componentsOfProtocol_removeComponent, systemAt_removeComponent, indexed.byProtocol]
    split
    · rename_i same
      subst same
      simp
    · rename_i differs
      simp [differs]
  · intro id
    rw [mem_unsyncedPools_removeComponent, unsyncedProtocols_removeComponent,
      systemAt_removeComponent, indexed.unsynced]
    split
    · rename_i same
      subst same
      simp only [reduceCtorEq, and_false, exists_false, iff_false, not_and]
      rintro ⟨system, _, held⟩ apart
      exact apart (by simp [held]) rfl
    · rename_i differs
      simp [differs]

/-- A change counts once, and only a change touches what constraints are resolved from. -/
theorem follows_one {after : MarketState P} {changed : Prop} [Decidable changed]
    (indexed : after.Indexed) (room : market.generation + 1 < 2 ^ 64)
    (counted : after.constraintGeneration =
      if changed then market.constraintGeneration + 1 else market.constraintGeneration)
    (same : ¬ changed → (∀ id, after.systemAt id = market.systemAt id) ∧
      after.unsyncedProtocols = market.unsyncedProtocols) : Follows 1 market after := by
  have next : after.generation = market.generation + if changed then 1 else 0 := by
    rw [generation, counted]
    split
    · exact toNat_succ room
    · rfl
  refine ⟨indexed, ?_, ?_, fun equal => same fun happened => ?_⟩
  · omega
  · rw [next]
    split <;> omega
  · rw [if_pos happened] at next
    omega

variable (indexed : market.Indexed)
include indexed

private theorem Indexed.follows_upsertComponent (found : UpsertedComponents)
    {component : ProtocolComponent} (room : market.generation + 1 < 2 ^ 64)
    (keeps : ∀ system ∈ market.systemAt component.id, system = component.protocolSystem) :
    Follows 1 market (MarketState.upsertComponent decode (market, found) component).1 := by
  apply follows_one (indexed.upsertComponent decode found keeps) room
    (constraintGeneration_upsertComponent decode found component)
  intro held
  refine ⟨fun id => ?_, unsyncedProtocols_upsertComponent decode found component⟩
  rw [systemAt_upsertComponent]
  split
  · rename_i same
    obtain ⟨system, stored⟩ := Option.ne_none_iff_exists'.mp held
    rw [same, stored, keeps system stored]
  · rfl

private theorem Indexed.follows_removeComponent (gone : ComponentId)
    (room : market.generation + 1 < 2 ^ 64) : Follows 1 market (market.removeComponent gone) := by
  apply follows_one (indexed.removeComponent gone) room (constraintGeneration_removeComponent gone)
  intro absent
  refine ⟨fun id => ?_, unsyncedProtocols_removeComponent gone⟩
  rw [systemAt_removeComponent]
  split
  · rename_i same
    rw [same, not_ne_iff.mp absent]
  · rfl

/-- Every component keeps the system its id is stored under, in the market and in the list. -/
def KeepsSystems (market : MarketState P) (components : List ProtocolComponent) : Prop :=
  ∀ component ∈ components,
    (∀ system ∈ market.systemAt component.id, system = component.protocolSystem) ∧
      ∀ other ∈ components, other.id = component.id →
        other.protocolSystem = component.protocolSystem

private theorem Indexed.follows_upsertComponents {components : List ProtocolComponent}
    (keeps : market.KeepsSystems components)
    (room : market.generation + components.length < 2 ^ 64) :
    Follows components.length market (market.upsertComponents decode components).1 := by
  unfold upsertComponents
  generalize (⟨[], []⟩ : UpsertedComponents) = found
  induction components generalizing market found with
  | nil => exact indexed.follows
  | cons first rest ih =>
    rw [length_cons] at room
    have step : Follows 1 market (MarketState.upsertComponent decode (market, found) first).1 :=
      indexed.follows_upsertComponent decode found (by omega) (keeps first mem_cons_self).1
    have kept :
        (MarketState.upsertComponent decode (market, found) first).1.KeepsSystems rest := by
      intro component member
      obtain ⟨held, alike⟩ := keeps component (mem_cons_of_mem _ member)
      refine ⟨fun system known => ?_, fun other later => alike other (mem_cons_of_mem _ later)⟩
      rw [systemAt_upsertComponent] at known
      split at known
      · rename_i same
        obtain rfl := Option.some.inj known
        exact alike first mem_cons_self same.symm
      · exact held system known
    have bound := step.bounded
    have more := step.trans (ih step.indexed kept (by omega)
      (MarketState.upsertComponent decode (market, found) first).2)
    rwa [Nat.add_comm 1] at more

private theorem Indexed.follows_removeComponents (ids : List ComponentId)
    (room : market.generation + ids.length < 2 ^ 64) :
    Follows ids.length market (market.removeComponents ids) := by
  induction ids generalizing market with
  | nil => exact indexed.follows
  | cons id rest ih =>
    rw [length_cons] at room
    have step := indexed.follows_removeComponent id (by omega)
    have bound := step.bounded
    have more := step.trans (ih step.indexed (by omega))
    rwa [Nat.add_comm 1] at more

private theorem Indexed.follows_updateSyncStatus (syncStates : List (String × SynchronizerState))
    (maxSyncLag : Duration) (room : market.generation + 1 < 2 ^ 64) :
    Follows 1 market (market.updateSyncStatus syncStates maxSyncLag) := by
  unfold updateSyncStatus
  split
  · exact follows_one indexed room (if_neg not_false).symm fun _ => ⟨fun _ => rfl, rfl⟩
  · unfold refreshUnsyncedProtocols
    dsimp only
    split
    · exact follows_one ⟨indexed.byProtocol, indexed.unsynced⟩ room (if_neg not_false).symm
        fun _ => ⟨fun _ => rfl, rfl⟩
    · refine follows_one ⟨indexed.byProtocol, fun id => ?_⟩ room (if_pos trivial).symm
        fun unchanged => absurd trivial unchanged
      rw [Finset.mem_biUnion]
      apply exists_congr
      intro system
      exact and_congr_right fun _ => indexed.byProtocol system id

/-- Every component that is stored again keeps its protocol system, and the generation does not
wrap around. -/
def Steady (market : MarketState P) : MarketCall P → Prop
  | .upsertComponents components =>
    market.KeepsSystems components ∧ market.generation + components.length < 2 ^ 64
  | .removeComponents ids => market.generation + ids.length < 2 ^ 64
  | .updateStates _ => True
  | .updateSyncStatus _ _ => market.generation + 1 < 2 ^ 64

private theorem Indexed.follows_apply {call : MarketCall P} (steady : market.Steady call) :
    ∃ changes, Follows changes market (market.apply decode call) := by
  cases call with
  | upsertComponents components =>
    exact ⟨_, indexed.follows_upsertComponents decode steady.1 steady.2⟩
  | removeComponents ids => exact ⟨_, indexed.follows_removeComponents ids steady⟩
  | updateStates states =>
    exact ⟨0, ⟨indexed.byProtocol, indexed.unsynced⟩, Nat.le_refl _, Nat.le_refl _,
      fun _ => ⟨fun _ => rfl, rfl⟩⟩
  | updateSyncStatus syncStates maxSyncLag =>
    exact ⟨1, indexed.follows_updateSyncStatus syncStates maxSyncLag steady⟩

end Writes

/-! ## What a filter resolves to -/

private theorem Indexed.mem_poolsOfEntry {market : MarketState P} (indexed : market.Indexed)
    (entry : String) (id : ComponentId) :
    id ∈ market.poolsOfEntry entry ↔
      ∃ system, protocolMatches entry system = true ∧ market.systemAt id = some system := by
  simp only [← indexed.byProtocol]
  unfold poolsOfEntry protocolMatches componentsOfProtocol
  split
  · rw [mem_unionOf]
    constructor
    · rintro ⟨ids, listed, member⟩
      obtain ⟨indexed, kept, rfl⟩ := mem_map.mp listed
      obtain ⟨present, family⟩ := mem_filter.mp kept
      refine ⟨indexed.1, family, ?_⟩
      rw [lookup_eq_some_iff.mpr present]
      exact member
    · rintro ⟨system, family, member⟩
      cases known : market.componentsByProtocol.lookup system with
      | none => simp [known] at member
      | some ids =>
        rw [known] at member
        refine ⟨ids, mem_map.mpr ⟨⟨system, ids⟩, mem_filter.mpr
          ⟨lookup_eq_some_iff.mp known, family⟩, rfl⟩, member⟩
  · simp

private theorem Follows.resolveRouteFilter_eq {changes : Nat} {before after : MarketState P}
    (follows : Follows changes before after) (indexed : before.Indexed)
    (same : after.generation = before.generation) (filter : RouteConstraints) :
    after.resolveRouteFilter filter = before.resolveRouteFilter filter := by
  obtain ⟨systems, unsynced⟩ := follows.same same
  have pools : after.poolsOfEntry = before.poolsOfEntry := by
    funext entry
    ext id
    rw [indexed.mem_poolsOfEntry, follows.indexed.mem_poolsOfEntry]
    simp only [systems]
  have out : after.unsyncedPools = before.unsyncedPools := by
    ext id
    rw [indexed.unsynced, follows.indexed.unsynced, unsynced]
    simp only [systems]
  rw [resolveRouteFilter, resolveRouteFilter, pools, out]

end MarketState

/-! ## A request beside the writes -/

/-- The market, and what a request has cached. -/
structure ResolvingRequest (P : Type) where
  market : MarketState P
  cache : ConstraintCache

/-- A call that writes the market, or the request resolving its constraints. -/
inductive RequestAction (P : Type)
  | write (call : MarketCall P)
  | resolve

namespace ResolvingRequest

section Steps

variable (decode : DirectionsDecoder) (filter : RouteConstraints)

/-- An empty market and a request that has resolved nothing. -/
def start : ResolvingRequest P := ⟨.new, none⟩

/-- One step. -/
def step (request : ResolvingRequest P) :
    RequestAction P → ResolvingRequest P
  | .write call => { request with market := request.market.apply decode call }
  | .resolve => { request with cache := (resolveConstraints request.market filter request.cache).2 }

/-- The market and the cache after a run. -/
def run (request : ResolvingRequest P) (actions : List (RequestAction P)) : ResolvingRequest P :=
  actions.foldl (step decode filter) request

/-- Along a run the indexes are exact, states of one generation resolve every filter alike, and the
request is handed the constraints of the current market. -/
structure Exact (actions : List (RequestAction P)) : Prop where
  indexed : ∀ seen, seen <+: actions → (start.run decode filter seen).market.Indexed
  generation : ∀ earlier later, earlier <+: later → later <+: actions →
    (start.run decode filter earlier).market.constraintGeneration =
      (start.run decode filter later).market.constraintGeneration → ∀ other : RouteConstraints,
        (start.run decode filter earlier).market.resolveRouteFilter other =
          (start.run decode filter later).market.resolveRouteFilter other
  handedOut : ∀ seen, seen ++ [.resolve] <+: actions →
    (resolveConstraints (start.run decode filter seen).market filter
      (start.run decode filter seen).cache).1 =
        (start.run decode filter seen).market.resolveRouteFilter filter

end Steps

/-- A write keeps protocol systems and does not exhaust the generation. -/
def Steady (request : ResolvingRequest P) : RequestAction P → Prop
  | .write call => request.market.Steady call
  | .resolve => True

/-- The indexes are exact, and what is cached is of no later generation and right if it is of the
current one. -/
structure Current (filter : RouteConstraints) (request : ResolvingRequest P) : Prop where
  indexed : request.market.Indexed
  cached : ∀ known ∈ request.cache, known.1.toNat ≤ request.market.generation ∧
    (known.1 = request.market.constraintGeneration →
      known.2 = request.market.resolveRouteFilter filter)

variable {decode : DirectionsDecoder} {filter : RouteConstraints} {request : ResolvingRequest P}

section

variable (current : request.Current filter)
include current

private theorem Current.handedOut :
    (resolveConstraints request.market filter request.cache).1 =
      request.market.resolveRouteFilter filter := by
  unfold resolveConstraints
  split
  · rename_i kept
    obtain ⟨known, same⟩ := Option.filter_eq_some_iff.mp kept
    exact (current.cached _ known).2 (of_decide_eq_true same)
  · rfl

private theorem Current.write {call : MarketCall P} (steady : request.market.Steady call) :
    (request.step decode filter (.write call)).Current filter := by
  obtain ⟨changes, follows⟩ := current.indexed.follows_apply decode steady
  refine ⟨follows.indexed, fun known cached => ?_⟩
  obtain ⟨earlier, right⟩ := current.cached known cached
  refine ⟨earlier.trans follows.mono, fun now => ?_⟩
  -- The generation that was cached is both at most the old one and the new one.
  have between : (request.market.apply decode call).generation = request.market.generation := by
    apply Nat.le_antisymm _ follows.mono
    exact (congrArg UInt64.toNat now).symm.le.trans earlier
  rw [right (now.trans (UInt64.toNat_inj.mp between))]
  exact (follows.resolveRouteFilter_eq current.indexed between filter).symm

private theorem Current.step {action : RequestAction P}
    (steady : request.Steady action) : (request.step decode filter action).Current filter := by
  cases action with
  | write call => exact current.write steady
  | resolve =>
    refine ⟨current.indexed, fun known cached => ?_⟩
    simp only [ResolvingRequest.step, resolveConstraints] at cached
    split at cached
    · exact current.cached known cached
    · cases cached
      exact ⟨Nat.le_refl _, fun _ => rfl⟩

end

private theorem indexed_new : (MarketState.new : MarketState P).Indexed :=
  ⟨fun system id => (by simp [MarketState.componentsOfProtocol, MarketState.systemAt,
    MarketState.new]), fun id => (by simp [MarketState.new])⟩

private theorem follows_run {actions : List (RequestAction P)} (indexed : request.market.Indexed)
    (steady : ∀ entry ∈ traceFold (step decode filter) request actions, entry.1.Steady entry.2) :
    ∃ changes, MarketState.Follows changes request.market
      (request.run decode filter actions).market := by
  have trace := Trace.fold (step decode filter) request actions
  apply (trace.invariant (fun reached => ∃ changes,
    MarketState.Follows changes request.market reached.market) ⟨0, indexed.follows⟩ _).2
  intro entry member reached
  obtain ⟨changes, follows⟩ := reached
  have ready := steady entry member
  cases action : entry.2 with
  | write call =>
    rw [action] at ready
    obtain ⟨more, next⟩ := follows.indexed.follows_apply decode ready
    exact ⟨changes + more, follows.trans next⟩
  | resolve => exact ⟨changes, follows⟩

/-- **The indexes stay exact, and cached constraints are current, in every steady run.** -/
theorem exact_of_steady (decode : DirectionsDecoder)
    (filter : RouteConstraints) (actions : List (RequestAction P))
    (steady : ∀ entry ∈ traceFold (step decode filter) start actions, entry.1.Steady entry.2) :
    Exact decode filter actions := by
  have current : ∀ seen, seen <+: actions → (start.run decode filter seen).Current filter := by
    intro seen early
    have trace := Trace.fold (step decode filter) (start : ResolvingRequest P) seen
    apply (trace.invariant (Current filter) ⟨indexed_new, by simp [start]⟩ _).2
    intro entry member reached
    exact reached.step (steady entry (Trace.mem_traceFold_of_prefix early member))
  refine ⟨fun seen early => (current seen early).indexed, ?_, fun seen early => ?_⟩
  · intro earlier later begins early same other
    obtain ⟨more, rfl⟩ := begins
    have indexed := (current earlier ((prefix_append _ _).trans early)).indexed
    have rest : ∀ entry ∈ traceFold (step decode filter) (start.run decode filter earlier) more,
        entry.1.Steady entry.2 := by
      intro entry member
      apply steady entry (Trace.mem_traceFold_of_prefix early _)
      rw [Trace.traceFold_append]
      exact mem_append_right _ member
    obtain ⟨changes, follows⟩ := follows_run indexed rest
    have joined : start.run decode filter (earlier ++ more) =
        (start.run decode filter earlier).run decode filter more := foldl_append
    rw [joined] at same ⊢
    exact (follows.resolveRouteFilter_eq indexed (congrArg UInt64.toNat same).symm other).symm
  · exact (current seen ((prefix_append _ _).trans early)).handedOut

section Samples

def sampleComponent (system : String) : ProtocolComponent := ⟨"x", system, [0, 1], ∅⟩

def sampleFilter : RouteConstraints := ⟨∅, {"uniswap_v2"}, ∅, ∅⟩

/-- A component is stored twice, the second time under a system that may be another. -/
def storedTwice (system : String) : List (RequestAction Unit) :=
  [.write (.upsertComponents [sampleComponent "uniswap_v2"]), .resolve,
    .write (.upsertComponents [sampleComponent system]), .resolve]

/-- A component that is stored again under its system. -/
theorem stored_again_exact : Exact (fun _ => none) sampleFilter (storedTwice "uniswap_v2") := by
  apply exact_of_steady
  have keeps : ∀ market : MarketState Unit, market.systemAt "x" ∈ [none, some "uniswap_v2"] →
      market.KeepsSystems [sampleComponent "uniswap_v2"] := by
    intro market held component member
    obtain rfl := mem_singleton.mp member
    refine ⟨fun system known => ?_, fun other alike _ => by rw [mem_singleton.mp alike]⟩
    have here : market.systemAt "x" = some system := known
    rw [here] at held
    simpa [sampleComponent] using held
  intro entry member
  simp only [storedTwice, traceFold, mem_cons, not_mem_nil, or_false] at member
  rcases member with rfl | rfl | rfl | rfl
  · exact ⟨keeps _ (by decide +kernel), by decide +kernel⟩
  · trivial
  · exact ⟨keeps _ (by decide +kernel), by decide +kernel⟩
  · trivial

/-- A component that is stored again under another system stays listed under the first. -/
theorem moved_component_listed_twice :
    ¬ Exact (fun _ => none) sampleFilter (storedTwice "uniswap_v3") := by
  intro exactly
  have listed := (exactly.indexed _ (prefix_refl _)).byProtocol "uniswap_v2" "x"
  revert listed
  decide +kernel

end Samples

end ResolvingRequest

end Fynd
