import Fynd.Derived.FailureMap

/-!
# One round for several events

After a lag the manager folds the events it still has into one change and runs a single round. The
round does to a direction what the last word on its component says, and so do the rounds that
handle the events one by one over the same market.
-/

namespace Fynd

open Foundation List

variable {P Rate : Type}

/-! ## The last word on a component -/

/-- What a change says of a component. -/
inductive Word
  | added (topology : ComponentTopology)
  | removed
  | updated
  | unnamed

/-- The word of a change on a component. An addition counts over a removal, and both count over an
update. -/
def ChangedComponents.word (changed : ChangedComponents) (id : ComponentId) : Word :=
  match changed.added.lookup id with
  | some topology => .added topology
  | none =>
    if id ∈ changed.removed then .removed else if id ∈ changed.updated then .updated else .unnamed

/-- A word followed by an update. -/
def Word.andUpdated : Word → Word
  | .unnamed | .updated => .updated
  | word => word

/-- A word followed by another. -/
def Word.andThen (word : Word) : Word → Word
  | .unnamed => word
  | .updated => word.andUpdated
  | later => later

section Words

variable {changed : ChangedComponents} {id other : ComponentId}

private theorem word_of_added {topology : ComponentTopology}
    (found : changed.added.lookup id = some topology) : changed.word id = .added topology := by
  rw [ChangedComponents.word, found]

section

variable (absent : changed.added.lookup id = none)
include absent

private theorem word_of_removed (gone : id ∈ changed.removed) : changed.word id = .removed := by
  rw [ChangedComponents.word, absent]
  exact if_pos gone

private theorem word_of_updated (kept : id ∉ changed.removed)
    (named : id ∈ changed.updated) : changed.word id = .updated := by
  rw [ChangedComponents.word, absent]
  exact (if_neg kept).trans (if_pos named)

private theorem word_of_unnamed (kept : id ∉ changed.removed)
    (quiet : id ∉ changed.updated) : changed.word id = .unnamed := by
  rw [ChangedComponents.word, absent]
  exact (if_neg kept).trans (if_neg quiet)

end

/-- What an event says of a component. -/
theorem word_ofEvent {event : MarketEvent} : (ChangedComponents.ofEvent event).word id =
    match event.addedComponents.lookup id with
    | some topology => .added topology
    | none => if id ∈ event.removedComponents then .removed
        else if id ∈ event.updatedComponents then .updated else .unnamed :=
  rfl

private theorem word_congr {before after : ChangedComponents}
    (added : after.added.lookup id = before.added.lookup id)
    (removed : id ∈ after.removed ↔ id ∈ before.removed)
    (updated : id ∈ after.updated ↔ id ∈ before.updated) : after.word id = before.word id := by
  simp only [ChangedComponents.word, added, removed, updated]

private theorem word_add (topology : ComponentTopology) :
    (ChangedComponents.mk (changed.added.insert id topology) (changed.removed.erase id)
      (changed.updated.erase id)).word other =
        if other = id then .added topology else changed.word other := by
  split
  · rename_i same
    exact word_of_added (by rw [lookup_insert_ite, if_pos same])
  · rename_i differs
    apply word_congr
    · rw [lookup_insert_ite, if_neg differs]
    · exact mem_erase_of_ne differs
    · exact mem_erase_of_ne differs

private theorem word_remove :
    (ChangedComponents.mk (changed.added.erase id) (changed.removed.insert id)
      (changed.updated.erase id)).word other =
        if other = id then .removed else changed.word other := by
  split
  · rename_i same
    apply word_of_removed
    · rw [lookup_erase_ite, if_pos same]
    · exact mem_insert_iff.mpr (.inl same)
  · rename_i differs
    apply word_congr
    · rw [lookup_erase_ite, if_neg differs]
    · rw [mem_insert_iff]
      exact or_iff_right differs
    · exact mem_erase_of_ne differs

private theorem word_update : (if (changed.added.lookup id).isNone && id ∉ changed.removed then
        { changed with updated := changed.updated.insert id }
      else changed : ChangedComponents).word other =
        if other = id then (changed.word other).andUpdated else changed.word other := by
  by_cases same : other = id
  · subst same
    rw [if_pos rfl]
    cases found : changed.added.lookup other with
    | some topology => simp [word_of_added found, Word.andUpdated]
    | none =>
      by_cases gone : other ∈ changed.removed
      · simp [word_of_removed found gone, gone, Word.andUpdated]
      · have named : ({ changed with updated := changed.updated.insert other } :
            ChangedComponents).word other = .updated :=
          word_of_updated found gone (mem_insert_iff.mpr (.inl rfl))
        by_cases known : other ∈ changed.updated
        · simp [gone, named, word_of_updated found gone known, Word.andUpdated]
        · simp [gone, named, word_of_unnamed found gone known, Word.andUpdated]
  · rw [if_neg same]
    split
    · refine word_congr rfl Iff.rfl ?_
      rw [mem_insert_iff]
      exact or_iff_right same
    · rfl

private theorem word_foldl_add (entries : List (Sigma fun _ : ComponentId => ComponentTopology))
    (nodup : entries.NodupKeys) :
    (entries.foldl (fun known entry => (⟨known.added.insert entry.1 entry.2,
      known.removed.erase entry.1, known.updated.erase entry.1⟩ : ChangedComponents))
        changed).word id =
      (entries.dlookup id).elim (changed.word id) .added := by
  induction entries generalizing changed with
  | nil => rfl
  | cons entry rest ih =>
    obtain ⟨key, topology⟩ := entry
    obtain ⟨fresh, nodup⟩ := nodupKeys_cons.mp nodup
    rw [foldl_cons, ih nodup, word_add]
    by_cases same : id = key
    · subst same
      rw [dlookup_cons_eq, dlookup_eq_none.mpr fresh, if_pos rfl]
      rfl
    · rw [dlookup_cons_ne _ _ same, if_neg same]

private theorem word_foldl_remove (gone : List ComponentId) :
    (gone.foldl (fun known id => (⟨known.added.erase id, known.removed.insert id,
      known.updated.erase id⟩ : ChangedComponents)) changed).word id =
      if id ∈ gone then .removed else changed.word id := by
  induction gone generalizing changed with
  | nil => simp
  | cons first rest ih =>
    rw [foldl_cons, ih, word_remove]
    by_cases same : id = first <;> by_cases later : id ∈ rest <;> simp [same, later]

private theorem andUpdated_andUpdated (word : Word) :
    word.andUpdated.andUpdated = word.andUpdated := by
  cases word <;> rfl

private theorem word_foldl_update (named : List ComponentId) :
    (named.foldl (fun known id => if (known.added.lookup id).isNone && id ∉ known.removed then
        { known with updated := known.updated.insert id }
      else known) changed).word id =
      if id ∈ named then (changed.word id).andUpdated else changed.word id := by
  induction named generalizing changed with
  | nil => simp
  | cons first rest ih =>
    rw [foldl_cons, ih, word_update]
    by_cases same : id = first <;> by_cases later : id ∈ rest <;>
      simp [same, later, andUpdated_andUpdated]

private theorem word_absorb (changed : ChangedComponents) (event : MarketEvent) (id : ComponentId)
    (single : id ∈ event.removedComponents → event.addedComponents.lookup id = none) :
    (changed.absorb event).word id =
      (changed.word id).andThen ((ChangedComponents.ofEvent event).word id) := by
  unfold ChangedComponents.absorb
  dsimp only
  rw [word_foldl_update, word_foldl_remove, word_foldl_add _ event.addedComponents.nodupKeys]
  have listed : event.addedComponents.entries.dlookup id = event.addedComponents.lookup id := rfl
  rw [listed]
  by_cases gone : id ∈ event.removedComponents
  · simp [word_ofEvent, single gone, gone, Word.andUpdated, Word.andThen]
  · cases found : event.addedComponents.lookup id with
    | some topology => simp [word_ofEvent, gone, found, Word.andUpdated, Word.andThen]
    | none =>
      by_cases named : id ∈ event.updatedComponents <;>
        simp [word_ofEvent, gone, found, named, Word.andThen]

theorem isEmpty_iff_unnamed :
    changed.isEmpty = true ↔ ∀ id, changed.word id = .unnamed := by
  simp only [ChangedComponents.isEmpty, Bool.and_eq_true, List.isEmpty_iff]
  constructor
  · rintro ⟨⟨added, removed⟩, updated⟩ id
    apply word_of_unnamed
    · rw [AList.lookup, added]
      rfl
    · simp [removed]
    · simp [updated]
  · intro unnamed
    have absent (id : ComponentId) : changed.added.lookup id = none := by
      cases found : changed.added.lookup id with
      | none => rfl
      | some topology =>
        have added := unnamed id
        rw [word_of_added found] at added
        cases added
    have kept (id : ComponentId) : id ∉ changed.removed := by
      intro gone
      have removed := unnamed id
      rw [word_of_removed (absent id) gone] at removed
      cases removed
    refine ⟨⟨eq_nil_iff_forall_not_mem.mpr fun entry member => ?_,
      eq_nil_iff_forall_not_mem.mpr kept⟩,
      eq_nil_iff_forall_not_mem.mpr fun id named => ?_⟩
    · have found := lookup_eq_some_iff.mpr member
      rw [absent] at found
      cases found
    · have updated := unnamed id
      rw [word_of_updated (absent id) (kept id) named] at updated
      cases updated

end Words

/-! ## What a word does to a direction -/

section Effects

variable {text : AddressText} {spotPrice : SpotPriceFn P Rate} {market : MarketState P}
  {block : Nat} {key : SpotPriceKey} {changed : ChangedComponents} {store : SpotPriceStore Rate}

variable (spotPrice market block key) in
/-- What a round over a market leaves of a direction, by the word on its component. -/
def Word.effect (entry : Option Rate × Option (Nat × FailedItemError)) :
    Word → Option Rate × Option (Nat × FailedItemError)
  | .added topology =>
    if key.2 ∈ topology.swapDirections then settledEntry spotPrice market block key
    else (none, none)
  | .removed => (none, none)
  | .updated =>
    (market.directionsAt key.1).elim entry fun directions =>
      if key.2 ∈ directions then settledEntry spotPrice market block key
      else if (market.getSimulationState key.1).isNone then (none, entry.2) else entry
  | .unnamed => entry

/-- A word that says how a component stands in the market. -/
def Word.Fits (market : MarketState P) (id : ComponentId) : Word → Prop
  | .added topology => market.directionsAt id = some topology.swapDirections
  | .removed => market.directionsAt id = none
  | .updated | .unnamed => True

/-- No direction has both a price and a failure. -/
def SpotPriceStore.Apart (store : SpotPriceStore Rate) : Prop :=
  ∀ key, store.price key = none ∨ store.failed.lookup key = none

/-- **A round does what the word on the component says.** -/
theorem entry_eq_effect (keyed : KeyedTokens market.tokens) (apart : store.Apart)
    (fits : (changed.word key.1).Fits market key.1) :
    (spotPriceRoundAt text spotPrice market block store changed).entry key =
      (changed.word key.1).effect spotPrice market block key (store.entry key) := by
  cases found : changed.added.lookup key.1 with
  | some topology =>
    have directions : directionsToPrice market changed key.1 = some topology.swapDirections := by
      rw [directionsToPrice, found]
    have named : key.1 ∈ changed.added.keys ++ changed.updated :=
      mem_append_left _ (AList.mem_keys.mp (AList.lookup_isSome.mp (by simp [found])))
    rw [word_of_added found, Word.effect]
    split
    · rename_i listed
      exact entry_of_attempted keyed ⟨named, _, directions, listed⟩
    · rename_i unlisted
      apply entry_of_forgotten keyed (.inr ⟨topology, found, unlisted⟩)
      rintro ⟨_, others, same, member⟩
      rw [directions, Option.some.injEq] at same
      exact unlisted (same ▸ member)
  | none =>
    have directions : directionsToPrice market changed key.1 = market.directionsAt key.1 := by
      rw [directionsToPrice, found]
    have unlisted : ¬∃ topology, changed.added.lookup key.1 = some topology ∧
        key.2 ∉ topology.swapDirections := by
      rintro ⟨topology, known, _⟩
      rw [found] at known
      cases known
    by_cases gone : key.1 ∈ changed.removed
    · rw [word_of_removed found gone] at fits ⊢
      apply entry_of_forgotten keyed (.inl gone)
      rintro ⟨_, others, same, _⟩
      rw [directions, fits] at same
      cases same
    · have kept : ¬Forgotten changed key := not_or.mpr ⟨gone, unlisted⟩
      by_cases named : key.1 ∈ changed.updated
      · rw [word_of_updated found gone named, Word.effect]
        have listed : key.1 ∈ changed.added.keys ++ changed.updated := mem_append_right _ named
        cases held : market.directionsAt key.1 with
        | none =>
          apply entry_of_unasked keyed kept _ (apart key)
          rintro ⟨_, others, same, _⟩
          rw [directions, held] at same
          cases same
        | some others =>
          rw [held] at directions
          rw [Option.elim_some]
          split
          · rename_i member
            exact entry_of_attempted keyed ⟨listed, others, directions, member⟩
          · rename_i absent
            have idle : ¬Attempted market changed key := by
              rintro ⟨_, same, known, member⟩
              rw [directions, Option.some.injEq] at known
              exact absent (known ▸ member)
            split
            · rename_i stateless
              exact entry_of_stateless keyed kept idle listed directions
                (Option.isNone_iff_eq_none.mp stateless)
            · rename_i stateful
              apply entry_of_unasked keyed kept _ (apart key)
              rintro ⟨_, same, known, member | stateless⟩
              · exact idle ⟨listed, same, known, member⟩
              · exact stateful (by rw [stateless]; rfl)
      · rw [word_of_unnamed found gone named]
        apply entry_of_unasked keyed kept _ (apart key)
        rintro ⟨listed, _⟩
        obtain added | updated := mem_append.mp listed
        · have present := AList.lookup_isSome.mpr (AList.mem_keys.mpr added)
          rw [found] at present
          cases present
        · exact named updated

theorem SpotPriceStore.apart_new : (SpotPriceStore.new : SpotPriceStore Rate).Apart :=
  fun _ => .inl rfl

/-- A round leaves no direction with both a price and a failure. -/
theorem SpotPriceStore.Apart.round (apart : store.Apart) (keyed : KeyedTokens market.tokens)
    (block : Nat) (changed : ChangedComponents) :
    (spotPriceRoundAt text spotPrice market block store changed).Apart := by
  intro key
  change ((spotPriceRoundAt text spotPrice market block store changed).entry key).1 = none ∨
    ((spotPriceRoundAt text spotPrice market block store changed).entry key).2 = none
  by_cases attempted : Attempted market changed key
  · rw [entry_of_attempted keyed attempted]
    cases error : directionError spotPrice market key with
    | none => exact .inr (by rw [settledEntry, error]; rfl)
    | some reason =>
      left
      by_contra priced
      have none := (directionError_eq_none_iff key).mpr (Option.isSome_iff_ne_none.mpr priced)
      rw [error] at none
      cases none
  · by_cases forgotten : Forgotten changed key
    · rw [entry_of_forgotten keyed forgotten attempted]
      exact .inl rfl
    · by_cases asked : key.1 ∈ changed.added.keys ++ changed.updated ∧ Priced market changed key
      · obtain ⟨named, directions, found, listed⟩ := asked
        have stateless := listed.resolve_left fun member =>
          attempted ⟨named, directions, found, member⟩
        rw [entry_of_stateless keyed forgotten attempted named found stateless]
        exact .inl rfl
      · rw [entry_of_unasked keyed forgotten asked (apart key)]
        exact apart key

/-- An update that follows a word which fits the market changes nothing but what the two together
say. -/
theorem effect_andUpdated {word : Word} (fits : word.Fits market key.1)
    (entry : Option Rate × Option (Nat × FailedItemError)) :
    Word.effect spotPrice market block key (word.effect spotPrice market block key entry) .updated =
      word.andUpdated.effect spotPrice market block key entry := by
  cases word with
  | unnamed => rfl
  | removed =>
    have gone : market.directionsAt key.1 = none := fits
    simp only [Word.effect, Word.andUpdated, gone, Option.elim_none]
  | added topology =>
    have held : market.directionsAt key.1 = some topology.swapDirections := fits
    simp only [Word.effect, Word.andUpdated, held, Option.elim_some]
    by_cases listed : key.2 ∈ topology.swapDirections <;> simp [listed]
  | updated =>
    simp only [Word.effect, Word.andUpdated]
    cases market.directionsAt key.1 with
    | none => rfl
    | some directions =>
      by_cases listed : key.2 ∈ directions
      · simp [listed]
      · by_cases stateless : (market.getSimulationState key.1).isNone = true <;>
          simp [listed, stateless]

end Effects

/-! ## Replaying and coalescing -/

section Replay

variable (text : AddressText) (spotPrice : SpotPriceFn P Rate)
  (market : MarketState P) (store : SpotPriceStore Rate)

/-- The manager handles one event. An empty one starts no round. -/
def handleMarketEvent (event : MarketEvent) : SpotPriceStore Rate :=
  if (ChangedComponents.ofEvent event).isEmpty then store
  else spotPriceRound text spotPrice market store (.ofEvent event)

/-- The manager handles events one by one. -/
def replayRounds (events : List MarketEvent) : SpotPriceStore Rate :=
  events.foldl (handleMarketEvent text spotPrice market) store

/-- The manager runs one round for several events. -/
def coalescedRound (events : List MarketEvent) : SpotPriceStore Rate :=
  (coalesceMarketEvents events).elim store (spotPriceRound text spotPrice market store)

end Replay

/-- The changes of several events. -/
def absorbedChanges (events : List MarketEvent) : ChangedComponents :=
  events.foldl ChangedComponents.absorb ⟨∅, [], []⟩

/-- The market stands as the last of the events on each component says. -/
def StandsAfter (market : MarketState P) (events : List MarketEvent) : Prop :=
  ∀ front event back, events = front ++ event :: back → ∀ id,
    (∀ later ∈ back, ¬later.Names id) → ((ChangedComponents.ofEvent event).word id).Fits market id

/-- No event both adds and removes a component. -/
def SingleWords (events : List MarketEvent) : Prop :=
  ∀ event ∈ events, ∀ id ∈ event.removedComponents, event.addedComponents.lookup id = none

/-- Two stores have the same prices and failures, for the same block. -/
structure SameContents (first second : SpotPriceStore Rate) : Prop where
  block : first.prices.map Prod.snd = second.prices.map Prod.snd
  price : ∀ key, first.price key = second.price key
  failure : ∀ key, first.failed.lookup key = second.failed.lookup key

section Equivalence

variable {text : AddressText} {spotPrice : SpotPriceFn P Rate}
  {market : MarketState P} {store : SpotPriceStore Rate} {events : List MarketEvent}

variable {event : MarketEvent} {id : ComponentId} {info : BlockInfo}

private theorem word_absorbedChanges_append (single : SingleWords (events ++ [event]))
    (id : ComponentId) :
    (absorbedChanges (events ++ [event])).word id =
      ((absorbedChanges events).word id).andThen ((ChangedComponents.ofEvent event).word id) := by
  rw [absorbedChanges, foldl_concat, ← absorbedChanges]
  exact word_absorb _ event id (single event (by simp) id)

private theorem SingleWords.of_append (single : SingleWords (events ++ [event])) :
    SingleWords events :=
  fun other member => single other (mem_append_left _ member)

private theorem fits_of_andThen {word later : Word} (quiet : later = .unnamed ∨ later = .updated) :
    (word.andThen later).Fits market id ↔ word.Fits market id := by
  obtain rfl | rfl := quiet
  · rfl
  · cases word <;> rfl

private theorem Word.Fits.later {word later : Word} (fits : (word.andThen later).Fits market id) :
    later.Fits market id := by
  cases later with
  | added | removed => exact fits
  | unnamed | updated => trivial

theorem word_unnamed_or_updated (unnamed : ¬event.Names id) :
    (ChangedComponents.ofEvent event).word id = .unnamed ∨
      (ChangedComponents.ofEvent event).word id = .updated := by
  obtain ⟨absent, kept⟩ := not_or.mp unnamed
  have absent : event.addedComponents.lookup id = none := by simpa using absent
  by_cases named : id ∈ event.updatedComponents <;> simp [word_ofEvent, absent, kept, named]

/-- The last word of the absorbed events fits the market. -/
theorem StandsAfter.fits (single : SingleWords events) (after : StandsAfter market events)
    (id : ComponentId) : ((absorbedChanges events).word id).Fits market id := by
  suffices fixed : (∀ front event back, events = front ++ event :: back →
      (∀ later ∈ back, ¬later.Names id) →
        ((ChangedComponents.ofEvent event).word id).Fits market id) →
        ((absorbedChanges events).word id).Fits market id from
    fixed fun front event back split quiet => after front event back split id quiet
  clear after
  induction events using List.reverseRecOn with
  | nil => exact fun _ => trivial
  | append_singleton events event ih =>
    intro last
    rw [word_absorbedChanges_append single]
    by_cases names : event.Names id
    · have fits := last events event [] rfl (by simp)
      unfold MarketEvent.Names at names
      cases found : event.addedComponents.lookup id with
      | some topology =>
        rw [word_ofEvent, found] at fits ⊢
        exact fits
      | none =>
        rw [word_ofEvent, found, if_pos (names.resolve_left (by simp [found]))] at fits ⊢
        exact fits
    · rw [fits_of_andThen (word_unnamed_or_updated names)]
      apply ih single.of_append
      intro front other back split quiet
      apply last front other (back ++ [event])
      · rw [split, append_assoc, cons_append]
      · intro later member
        obtain earlier | same := mem_append.mp member
        · exact quiet later earlier
        · exact mem_singleton.mp same ▸ names

/-- What a round over a market with a block, if there is one, does to a direction. -/
theorem entry_round (keyed : KeyedTokens market.tokens) (apart : store.Apart)
    (dated : market.lastUpdated = some info) {key : SpotPriceKey} {changed : ChangedComponents}
    (fits : (changed.word key.1).Fits market key.1) :
    (if changed.isEmpty then store
      else spotPriceRound text spotPrice market store changed).entry key =
      (changed.word key.1).effect spotPrice market info.number key (store.entry key) := by
  split
  · rename_i empty
    rw [isEmpty_iff_unnamed.mp empty key.1]
    rfl
  · rw [spotPriceRound, dated]
    exact entry_eq_effect keyed apart fits

private theorem apart_handleMarketEvent (keyed : KeyedTokens market.tokens) (apart : store.Apart)
    (event : MarketEvent) : (handleMarketEvent text spotPrice market store event).Apart := by
  unfold handleMarketEvent spotPriceRound
  split
  · exact apart
  · cases market.lastUpdated with
    | none => exact apart
    | some info => exact apart.round keyed info.number _

private theorem replayRounds_append (events : List MarketEvent) (event : MarketEvent) :
    replayRounds text spotPrice market store (events ++ [event]) =
      handleMarketEvent text spotPrice market (replayRounds text spotPrice market store events)
        event := by
  simp [replayRounds]

private theorem apart_replayRounds (keyed : KeyedTokens market.tokens) (apart : store.Apart)
    (events : List MarketEvent) : (replayRounds text spotPrice market store events).Apart := by
  induction events using List.reverseRecOn with
  | nil => exact apart
  | append_singleton events event ih =>
    rw [replayRounds_append]
    exact apart_handleMarketEvent keyed ih event

/-- Rounds one by one do what the last word says, if it fits the market. -/
theorem entry_replayRounds (keyed : KeyedTokens market.tokens) (apart : store.Apart)
    (dated : market.lastUpdated = some info) (single : SingleWords events) (key : SpotPriceKey)
    (fits : ((absorbedChanges events).word key.1).Fits market key.1) :
    (replayRounds text spotPrice market store events).entry key =
      ((absorbedChanges events).word key.1).effect spotPrice market info.number key
        (store.entry key) := by
  induction events using List.reverseRecOn with
  | nil => rfl
  | append_singleton events event ih =>
    rw [word_absorbedChanges_append single] at fits ⊢
    rw [replayRounds_append, handleMarketEvent,
      entry_round keyed (apart_replayRounds keyed apart events) dated fits.later]
    cases word : (ChangedComponents.ofEvent event).word key.1 with
    | added | removed => rfl
    | unnamed =>
      rw [word] at fits
      exact ih single.of_append fits
    | updated =>
      rw [word, fits_of_andThen (.inr rfl)] at fits
      rw [ih single.of_append fits]
      exact effect_andUpdated fits _

private theorem isEmpty_absorbedChanges (single : SingleWords events) :
    (absorbedChanges events).isEmpty = true ↔
      ∀ event ∈ events, (ChangedComponents.ofEvent event).isEmpty = true := by
  induction events using List.reverseRecOn with
  | nil => simp [absorbedChanges, ChangedComponents.isEmpty]
  | append_singleton events event ih =>
    have quiet (word later : Word) :
        word.andThen later = .unnamed ↔ word = .unnamed ∧ later = .unnamed := by
      cases word <;> cases later <;> simp [Word.andThen, Word.andUpdated]
    simp only [forall_mem_append, forall_mem_singleton, ← ih single.of_append]
    simp only [isEmpty_iff_unnamed, word_absorbedChanges_append single, quiet]
    exact forall_and

private theorem block_replayRounds (dated : market.lastUpdated = some info)
    (events : List MarketEvent) :
    (replayRounds text spotPrice market store events).prices.map Prod.snd =
      if ∀ event ∈ events, (ChangedComponents.ofEvent event).isEmpty = true then
        store.prices.map Prod.snd
      else some info.number := by
  induction events using List.reverseRecOn with
  | nil => simp [replayRounds]
  | append_singleton events event ih =>
    rw [replayRounds_append, handleMarketEvent]
    by_cases empty : (ChangedComponents.ofEvent event).isEmpty = true
    · rw [if_pos empty, ih]
      apply if_congr _ rfl rfl
      simp only [forall_mem_append, forall_mem_singleton, empty, and_true]
    · rw [if_neg empty, spotPriceRound, dated, if_neg]
      · rfl
      · intro all
        exact empty (all event (by simp))

private theorem replayRounds_of_undated (undated : market.lastUpdated = none)
    (events : List MarketEvent) : replayRounds text spotPrice market store events = store := by
  induction events using List.reverseRecOn with
  | nil => rfl
  | append_singleton events event ih =>
    rw [replayRounds_append, ih, handleMarketEvent, spotPriceRound, undated]
    exact ite_self store

/-! ## Events of the feed -/

private theorem Word.fits_congr {before after : MarketState P}
    (same : after.directionsAt id = before.directionsAt id) {word : Word} :
    word.Fits after id ↔ word.Fits before id := by
  cases word <;> simp only [Word.Fits, same]

variable {decode : DirectionsDecoder} {maxSyncLag : Duration}

private theorem fits_of_broadcast {market : MarketData P} {message : FeedMessage P}
    (sent : market.broadcast decode message = some event) (id : ComponentId) :
    ((ChangedComponents.ofEvent event).word id).Fits
      (market.handle decode maxSyncLag message).data id := by
  have announced := market.handle_announced decode maxSyncLag message
  cases found : event.addedComponents.lookup id with
  | some topology =>
    obtain ⟨stored, here, rfl⟩ :=
      Option.map_eq_some_iff.mp (announced.listed event sent id topology found)
    rw [word_ofEvent, found, Word.Fits, MarketState.directionsAt, here]
    rfl
  | none =>
    by_cases gone : id ∈ event.removedComponents
    · rw [word_ofEvent, found, if_pos gone, Word.Fits, MarketState.directionsAt,
        announced.gone id (announced.removals event sent ▸ gone)]
      rfl
    · have quiet : ¬event.Names id := not_or.mpr ⟨by simp [found], gone⟩
      obtain word | word := word_unnamed_or_updated quiet <;> rw [word] <;> trivial

/-- The market stands after the events that the feed has sent. -/
theorem StandsAfter.handle {market : MarketData P} (after : StandsAfter market.data events)
    (message : FeedMessage P) : StandsAfter (market.handle decode maxSyncLag message).data
      (events ++ (market.broadcast decode message).toList) := by
  have announced := market.handle_announced decode maxSyncLag message
  intro front event back split id quiet
  cases sent : market.broadcast decode message with
  | none =>
    rw [sent, Option.toList_none, append_nil] at split
    rw [Word.fits_congr (announced.silent id (by simp [sent]))]
    exact after front event back split id quiet
  | some last =>
    rw [sent, Option.toList_some] at split
    obtain rfl | ⟨rest, other, rfl⟩ := back.eq_nil_or_concat'
    · obtain ⟨_, same⟩ := append_inj' split rfl
      rw [← (List.cons.inj same).1]
      exact fits_of_broadcast sent id
    · rw [← cons_append, ← append_assoc] at split
      obtain ⟨earlier, same⟩ := append_inj' split rfl
      rw [← (List.cons.inj same).1] at quiet
      have unnamed : ¬last.Names id := quiet last (by simp)
      rw [Word.fits_congr (announced.silent id fun known also =>
        Option.some.inj (also.symm.trans sent) ▸ unnamed)]
      exact after front event rest earlier id fun later member =>
        quiet later (mem_append_left _ member)

/-- **Coalescing is equivalent to replaying.** One round for the net change of the events leaves the
prices and failures that rounds for the events one by one leave, over the market that stands after
the last of them. -/
theorem coalesced_round_replays (text : AddressText)
    (spotPrice : SpotPriceFn P Rate) {market : MarketState P}
    (keyed : KeyedTokens market.tokens) {store : SpotPriceStore Rate} (apart : store.Apart)
    {events : List MarketEvent} (single : SingleWords events) (after : StandsAfter market events) :
    SameContents (coalescedRound text spotPrice market store events)
      (replayRounds text spotPrice market store events) := by
  have coalesced : coalescedRound text spotPrice market store events =
      if (absorbedChanges events).isEmpty then store
      else spotPriceRound text spotPrice market store (absorbedChanges events) := by
    rw [coalescedRound, coalesceMarketEvents, ← absorbedChanges]
    cases (absorbedChanges events).isEmpty <;> rfl
  cases dated : market.lastUpdated with
  | none =>
    rw [coalesced, replayRounds_of_undated dated, spotPriceRound, dated, Option.elim_none,
      ite_self]
    exact ⟨rfl, fun _ => rfl, fun _ => rfl⟩
  | some info =>
    have fits := after.fits single
    have entries (key : SpotPriceKey) :
        (coalescedRound text spotPrice market store events).entry key =
          (replayRounds text spotPrice market store events).entry key := by
      rw [coalesced, entry_round keyed apart dated (fits key.1),
        entry_replayRounds keyed apart dated single key (fits key.1)]
    refine ⟨?_, fun key => congrArg Prod.fst (entries key),
      fun key => congrArg Prod.snd (entries key)⟩
    rw [coalesced, block_replayRounds dated,
      if_congr (isEmpty_absorbedChanges single).symm rfl rfl]
    split
    · rfl
    · rw [spotPriceRound, dated]
      rfl

end Equivalence

section Samples

/-- Addresses written in one letter. -/
def tallyText : AddressText where
  display := fun address => String.ofList (List.replicate address 'a')
  parse := fun text => some text.toList.length
  parse_display := by simp
  no_slash := by simp [mem_replicate]

def lagPool (id : ComponentId) : FeedComponent := ⟨id, "uniswap_v2", [⟨0, 18⟩, ⟨1, 18⟩], ∅⟩

def firstLagMessage : FeedMessage Nat :=
  .update .protocol
    { newPairs := [lagPool "x", lagPool "y"]
      removedPairs := []
      states := [("x", 1), ("y", 2)]
      blockNumber := 1
      syncStates := [("uniswap_v2", .ready ⟨1, "", 0⟩)] }

/-- A block in which one pool is gone and the other has moved. -/
def secondLagMessage : FeedMessage Nat :=
  .update .protocol
    { newPairs := []
      removedPairs := ["x"]
      states := [("y", 0)]
      blockNumber := 2
      syncStates := [("uniswap_v2", .ready ⟨2, "", 0⟩)] }

def lagStart : MarketData Nat := (MarketData.newShared).handle (fun _ => none) 0 firstLagMessage

def lagEnd : MarketData Nat := lagStart.handle (fun _ => none) 0 secondLagMessage

def lagEvents : List MarketEvent :=
  [] ++ (MarketData.newShared.broadcast (fun _ => none) firstLagMessage).toList ++
    (lagStart.broadcast (fun _ => none) secondLagMessage).toList

/-- A pool's state is its price. An empty pool has none. -/
def positivePrice (state : Nat) (_ _ : Token) : Except String Nat :=
  if state = 0 then .error "empty" else .ok state

/-- Two events are absorbed in one round. -/
theorem lag_events_replay :
    lagEvents.length = 2 ∧ SameContents
      (coalescedRound tallyText positivePrice lagEnd.data .new lagEvents)
      (replayRounds tallyText positivePrice lagEnd.data .new lagEvents) := by
  refine ⟨by decide +kernel, coalesced_round_replays tallyText positivePrice ?_
    SpotPriceStore.apart_new (by unfold SingleWords; decide +kernel) ?_⟩
  · exact MarketData.keyedTokens_handleAll [firstLagMessage, secondLagMessage]
  · apply StandsAfter.handle
    apply StandsAfter.handle
    intro front event back split
    simp at split

end Samples

end Fynd
