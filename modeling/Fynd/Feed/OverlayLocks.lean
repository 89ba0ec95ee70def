import Fynd.Feed.MarketData

/-!
# Overlays under two locks

The base state and the overlays are behind locks of their own. A block update evicts under
the lock of the overlays, lets go of it, and writes under the lock of the base state. A
labeled read takes the base lock first and looks at the overlays while it holds it. Each
acquisition is a step of its own here.
-/

namespace Fynd

open Foundation List

variable {P : Type}

/-- What a labeled read found: the base state it holds and the overlay of its label. -/
structure LabeledView (P : Type) where
  label : StateLabel
  base : MarketState P
  entry : Option (OverlayEntry P)

/-- The view the reader gets. -/
def LabeledView.view (found : LabeledView P) : MarketView P :=
  ⟨found.base, found.entry.map fun entry => (found.label, entry.states)⟩

/-- The overlay is valid for the block of the base state. -/
def LabeledView.Valid (found : LabeledView P) : Prop :=
  ∀ entry ∈ found.entry, ∀ block, found.base.label = toString block → block ≤ entry.validUntil

/-- Different blocks have different labels. -/
theorem block_eq_of_label_eq {block other : Nat} (same : toString block = toString other) :
    block = other := by
  rw [Nat.toString_eq_ofList_toDigits, Nat.toString_eq_ofList_toDigits, String.ofList_inj] at same
  rw [← @Nat.ofDigitChars_ten_toDigits block, same, Nat.ofDigitChars_ten_toDigits]

/-- What a labeled read finds. -/
def MarketData.findLabeled (market : MarketData P) (label : StateLabel) :
    Except ReadLabeledError (LabeledView P) :=
  match market.overlays.lookup label with
  | some entry => .ok ⟨label, market.data, some entry⟩
  | none =>
    if market.data.label = label then .ok ⟨label, market.data, none⟩
    else .error (.notFound label)

/-- The market with the operations under way: block updates that have evicted and not written,
readers that hold the base lock and have not looked at the overlays, and the views in use. -/
structure LockedMarket (P : Type) where
  market : MarketData P
  evicted : List (Update P)
  readers : List StateLabel
  views : List (LabeledView P)

/-- One acquisition of a lock, or the end of a view. -/
inductive LockAction (P : Type)
  | register (label : StateLabel) (states : Map ComponentId P) (validUntil : Nat)
  | remove (label : StateLabel)
  | clear
  | evict (msg : Update P)
  | write (update : Nat)
  | writeBook (update : BookUpdate P)
  | acquire (label : StateLabel)
  | lookUp (reader : Nat)
  | release (view : Nat)

namespace LockedMarket

/-- Nothing under way. -/
def start (market : MarketData P) : LockedMarket P := ⟨market, [], [], []⟩

/-- No reader holds the base lock. -/
def unread (state : LockedMarket P) : Bool := state.readers.isEmpty && state.views.isEmpty

section Steps

variable (decode : DirectionsDecoder) (maxSyncLag : Duration)

/-- A block update that has evicted writes, once no reader holds the base lock. -/
def write (state : LockedMarket P) (update : Nat) : LockedMarket P :=
  match state.unread, state.evicted[update]? with
  | true, some msg =>
    { state with
      market := state.market.writeBlock msg.blockNumber
        (MarketData.storeMessage decode maxSyncLag msg)
      evicted := state.evicted.eraseIdx update }
  | _, _ => state

/-- A reader looks at the overlays. It keeps the base lock if it gets a view. -/
def lookUp (state : LockedMarket P) (reader : Nat) : LockedMarket P :=
  match state.readers[reader]? with
  | none => state
  | some label =>
    { state with
      readers := state.readers.eraseIdx reader
      views := match state.market.findLabeled label with
        | .ok found => found :: state.views
        | .error _ => state.views }

/-- One step. A step whose lock is not free changes nothing. -/
def step (state : LockedMarket P) : LockAction P → LockedMarket P
  | .register label states validUntil =>
    { state with market := state.market.registerLabeledState label states validUntil }
  | .remove label => { state with market := state.market.removeLabeledState label }
  | .clear => { state with market := state.market.clearLabeledStates }
  | .evict msg =>
    { state with
      market := state.market.evict msg.blockNumber
      evicted := msg :: state.evicted }
  | .write update => state.write decode maxSyncLag update
  | .writeBook update =>
    if state.unread then { state with market := state.market.handleBookUpdate decode update }
    else state
  | .acquire label => { state with readers := label :: state.readers }
  | .lookUp reader => state.lookUp reader
  | .release view => { state with views := state.views.eraseIdx view }

end Steps

/-! ## Overlays that are registered in time -/

variable {decode : DirectionsDecoder} {maxSyncLag : Duration} {state : LockedMarket P}

/-- Up to a block, an overlay is valid for the base state and for the updates under way. -/
def Covers (state : LockedMarket P) (validUntil : Nat) : Prop :=
  (∀ block, state.market.data.label = toString block → block ≤ validUntil) ∧
    ∀ msg ∈ state.evicted, msg.blockNumber ≤ validUntil

/-- An overlay is registered only if it is valid for the base state and for every block update
that has evicted already. -/
def Timely (state : LockedMarket P) : LockAction P → Prop
  | .register _ _ validUntil => state.Covers validUntil
  | _ => True

/-- Every overlay covers the blocks at hand, and every view is valid. -/
structure Fresh (state : LockedMarket P) : Prop where
  overlays : ∀ label entry, state.market.overlays.lookup label = some entry →
    state.Covers entry.validUntil
  views : ∀ found ∈ state.views, found.Valid

section

variable (fresh : state.Fresh)
include fresh

private theorem Fresh.evict (msg : Update P) :
    (state.step decode maxSyncLag (.evict msg)).Fresh := by
  refine ⟨fun label entry known => ?_, fresh.views⟩
  change (filterValues _ _).lookup label = _ at known
  rw [lookup_filterValues, Option.filter_eq_some_iff, decide_eq_true_eq] at known
  obtain ⟨held, valid⟩ := known
  obtain ⟨base, updates⟩ := fresh.overlays label entry held
  refine ⟨base, fun other member => ?_⟩
  rcases mem_cons.mp member with rfl | earlier
  · exact valid
  · exact updates other earlier

private theorem Fresh.write (update : Nat) : (state.write decode maxSyncLag update).Fresh := by
  unfold LockedMarket.write
  split
  · rename_i msg _ waits
    refine ⟨fun label entry known => ?_, fresh.views⟩
    have covers := (fresh.overlays label entry known).2
    refine ⟨fun block labeled => ?_, fun other member => ?_⟩
    · have same : toString msg.blockNumber = toString block :=
        (MarketData.label_storeMessage msg _).symm.trans labeled
      rw [← block_eq_of_label_eq same]
      exact covers msg (mem_of_getElem? waits)
    · exact covers other (mem_of_mem_eraseIdx member)
  · exact fresh

private theorem Fresh.lookUp (reader : Nat) : (state.lookUp reader).Fresh := by
  unfold LockedMarket.lookUp
  split
  · exact fresh
  · rename_i label _
    refine ⟨fresh.overlays, fun found member => ?_⟩
    dsimp only at member
    split at member
    · rename_i looked
      rcases mem_cons.mp member with rfl | older
      · unfold MarketData.findLabeled at looked
        split at looked
        · rename_i entry known
          cases looked
          rintro _ ⟨⟩
          exact (fresh.overlays label entry known).1
        · split at looked <;> cases looked
          rintro _ ⟨⟩
      · exact fresh.views found older
    · exact fresh.views found member

private theorem Fresh.step {action : LockAction P}
    (timely : state.Timely action) : (state.step decode maxSyncLag action).Fresh := by
  cases action with
  | register label states validUntil =>
    refine ⟨fun other entry known => ?_, fresh.views⟩
    change (state.market.overlays.insert _ _).lookup other = _ at known
    rw [lookup_insert_ite] at known
    split at known
    · cases known
      exact timely
    · exact fresh.overlays other entry known
  | remove label =>
    exact ⟨fun other entry known => fresh.overlays other entry (lookup_erase_eq_some known).2,
      fresh.views⟩
  | clear => exact ⟨fun other entry known => (by cases known), fresh.views⟩
  | evict msg => exact fresh.evict msg
  | write update => exact fresh.write update
  | writeBook update =>
    simp only [LockedMarket.step]
    split
    · refine ⟨fun label entry known => ?_, fresh.views⟩
      obtain ⟨base, updates⟩ := fresh.overlays label entry known
      refine ⟨fun block labeled => base block ?_, updates⟩
      exact (MarketData.label_handleBookUpdate state.market update).symm.trans labeled
    · exact fresh
  | acquire label => exact ⟨fresh.overlays, fresh.views⟩
  | lookUp reader => exact fresh.lookUp reader
  | release view =>
    exact ⟨fresh.overlays, fun found member => fresh.views found (mem_of_mem_eraseIdx member)⟩

end

/-- **No view pairs a new base state with a stale overlay, if overlays are registered in time.** In
every interleaving of the lock steps whose registrations are valid for the base state and for the
block updates that have evicted already, every view has a valid overlay. -/
theorem views_valid_of_timely (decode : DirectionsDecoder)
    (maxSyncLag : Duration) (actions : List (LockAction P))
    (timely : ∀ entry ∈ traceFold (step decode maxSyncLag) (start MarketData.newShared) actions,
      entry.1.Timely entry.2) :
    ∀ found ∈ (actions.foldl (step decode maxSyncLag) (start MarketData.newShared)).views,
      found.Valid := by
  have trace := Trace.fold (step decode maxSyncLag) (start MarketData.newShared) actions
  have fresh := (trace.invariant Fresh ⟨fun label entry known => (by cases known), by simp [start]⟩
    fun entry member fresh => fresh.step (timely entry member)).2
  exact fresh.views

section Samples

def sampleMessage (block : Nat) : Update Unit :=
  { newPairs := [], removedPairs := [], states := [], blockNumber := block
    syncStates := [("uniswap_v2", .ready ⟨block, "", 0⟩)] }

/-- An overlay is registered at block 4, valid up to a block, between the eviction and the write of
block 5, and read after the write. -/
def registeredLate (validUntil : Nat) : List (LockAction Unit) :=
  [.evict (sampleMessage 4), .write 0, .evict (sampleMessage 5), .register "overlay" ∅ validUntil,
    .write 0, .acquire "overlay", .lookUp 0]

/-- An overlay that is valid for block 5 as well is in time. -/
theorem overlay_for_both_blocks_valid :
    ∃ found, found ∈ ((registeredLate 5).foldl (step (fun _ => none) 0)
      (start MarketData.newShared)).views ∧ found.entry.isSome = true ∧ found.Valid := by
  refine ⟨_, mem_singleton_self _, rfl, ?_⟩
  apply views_valid_of_timely (fun _ => none) 0 (registeredLate 5) _ _ (mem_singleton_self _)
  intro entry member
  simp only [registeredLate, traceFold, mem_cons, not_mem_nil, or_false] at member
  rcases member with rfl | rfl | rfl | rfl | rfl | rfl | rfl
  · trivial
  · trivial
  · trivial
  · refine ⟨fun block labeled => ?_, ?_⟩
    · have four : toString 4 = toString block := labeled
      rw [← block_eq_of_label_eq four]
      decide
    · decide
  · trivial
  · trivial
  · trivial

/-- An overlay that is valid for block 4 only is read over the base state of block 5. -/
theorem late_overlay_read_stale :
    ∃ found ∈ ((registeredLate 4).foldl (step (fun _ => none) 0)
      (start MarketData.newShared)).views, ¬ found.Valid := by
  refine ⟨_, mem_singleton_self _, fun valid => ?_⟩
  have five := valid _ rfl 5 rfl
  revert five
  decide

end Samples

end LockedMarket

end Fynd
