import Fynd.Feed.TychoFeed
import Fynd.Foundation.Trace
import Mathlib.Data.Finset.Union

/-!
# Shared market data with its overlays

The base state carries the label of the block it is at. Overlays are registered beside it
under labels of their own, each valid up to a block. A block update first evicts the
overlays that end before its block, then writes the base state.
-/

namespace Fynd

open Foundation List

variable {P : Type}

/-- A duration in nanoseconds. -/
abbrev Duration := Nat

def Duration.fromSecs (seconds : Nat) : Duration := seconds * 1000000000

/-- Whether a status excludes a protocol from routing. -/
def isUnsynced (status : SynchronizerState) (lastUpdatedTimestamp : Option Nat)
    (maxSyncLag : Duration) : Bool :=
  match status with
  | .started | .ready _ | .advanced _ => false
  | .stale _ | .ended _ => true
  | .delayed header =>
    lastUpdatedTimestamp.any fun lastUpdated =>
      maxSyncLag < Duration.fromSecs (lastUpdated - header.timestamp)

/-- The newest ready block of the statuses, the first of several with one number. -/
def newestReady (statuses : List (String × SynchronizerState)) : Option BlockInfo :=
  statuses.foldl (fun newest status =>
    match status.2 with
    | .ready header => if newest.all (·.number < header.number) then some header else newest
    | _ => newest) none

namespace MarketState

section

variable (market : MarketState P)

/-- The ids of the components of a protocol system. -/
def componentsOfProtocol (protocolSystem : String) : Finset ComponentId :=
  (market.componentsByProtocol.lookup protocolSystem).getD ∅

/-- The protocol systems whose status excludes them from routing. -/
def outOfSync (maxSyncLag : Duration) : Finset String :=
  ((market.protocolSyncStatus.entries.filter fun entry =>
    isUnsynced entry.2 (market.lastUpdated.map BlockInfo.timestamp) maxSyncLag).map
      Sigma.fst).toFinset

/-- Computes anew which protocol systems are out of sync and which pools they have. -/
def refreshUnsyncedProtocols (maxSyncLag : Duration) : MarketState P :=
  let unsynced := market.outOfSync maxSyncLag
  if unsynced = market.unsyncedProtocols then market
  else
    { market with
      unsyncedProtocols := unsynced
      unsyncedPools := unsynced.biUnion market.componentsOfProtocol
      constraintGeneration := market.constraintGeneration + 1 }

/-- Applies the statuses of a message. A message without any changes nothing. -/
def updateSyncStatus (syncStates : List (String × SynchronizerState))
    (maxSyncLag : Duration) : MarketState P :=
  if syncStates.isEmpty then market
  else
    { market with
      protocolSyncStatus := syncStates.foldl
        (fun map (status : String × SynchronizerState) => map.insert status.1 status.2)
        market.protocolSyncStatus
      lastUpdated := (newestReady syncStates).or market.lastUpdated
      }.refreshUnsyncedProtocols maxSyncLag

end

end MarketState

/-- An overlay: the pool states it replaces and the last block it is valid for. -/
structure OverlayEntry (P : Type) where
  states : Map ComponentId P
  validUntil : Nat

/-- Why a labeled read fails. -/
inductive ReadLabeledError
  | notFound (label : StateLabel)
  deriving DecidableEq, Repr

/-- The base state and the overlays. -/
structure MarketData (P : Type) where
  data : MarketState P
  overlays : Map StateLabel (OverlayEntry P)

/-- The two streams whose messages have the same form. -/
inductive UpdateStream
  | protocol
  | priceLevel
  deriving DecidableEq, Repr

/-- A message the feed receives. -/
inductive FeedMessage (P : Type)
  | update (stream : UpdateStream) (msg : Update P)
  | book (update : BookUpdate P)

/-- The block of a message that carries a sync status. -/
def FeedMessage.onChainBlock : FeedMessage P → Option Nat
  | .update _ msg => if msg.syncStates.isEmpty then none else some msg.blockNumber
  | .book _ => none

namespace MarketData

/-- An empty market. -/
def newShared : MarketData P := ⟨.new, ∅⟩

section

variable (market : MarketData P)

/-- A view under a label: that of an overlay, or that of the base state. -/
def readLabeled (label : StateLabel) : Except ReadLabeledError (MarketView P) :=
  match market.overlays.lookup label with
  | some entry => .ok ⟨market.data, some (label, entry.states)⟩
  | none => if market.data.label = label then .ok ⟨market.data, none⟩ else .error (.notFound label)

/-- Registers or replaces an overlay. -/
def registerLabeledState (label : StateLabel)
    (states : Map ComponentId P) (validUntil : Nat) : MarketData P :=
  { market with overlays := market.overlays.insert label ⟨states, validUntil⟩ }

def removeLabeledState (label : StateLabel) : MarketData P :=
  { market with overlays := market.overlays.erase label }

def clearLabeledStates : MarketData P :=
  { market with overlays := ∅ }

/-- Evicts the overlays that end before a block. -/
def evict (block : Nat) : MarketData P :=
  { market with overlays := filterValues (fun entry => block ≤ entry.validUntil) market.overlays }

/-- Labels the base state with a block and updates it. -/
def writeBlock (block : Nat) (update : MarketState P → MarketState P) : MarketData P :=
  { market with data := update { market.data with label := toString block } }

/-- Evicts the overlays that a block leaves behind, then applies the block to the base state. -/
def applyBlockUpdate (block : Nat) (update : MarketState P → MarketState P) : MarketData P :=
  (market.evict block).writeBlock block update

end

section Handlers

variable (decode : DirectionsDecoder) (maxSyncLag : Duration)

/-- What a message writes to the base state. -/
def storeMessage (msg : Update P) (market : MarketState P) : MarketState P :=
  (Fynd.handleTychoMessage decode market msg).1.updateSyncStatus msg.syncStates maxSyncLag

/-- Handles a message of the protocol stream or of the stream of price levels. -/
def handleTychoMessage (market : MarketData P) (msg : Update P) : MarketData P :=
  market.applyBlockUpdate msg.blockNumber (storeMessage decode maxSyncLag msg)

/-- Handles a book update, which belongs to no block. -/
def handleBookUpdate (market : MarketData P) (update : BookUpdate P) : MarketData P :=
  { market with data := (Fynd.handleBookUpdate decode market.data update).1 }

/-- Handles a message of any stream. -/
def handle (market : MarketData P) : FeedMessage P → MarketData P
  | .update _ msg => market.handleTychoMessage decode maxSyncLag msg
  | .book update => market.handleBookUpdate decode update

/-- Handles messages one after another. -/
def handleAll (market : MarketData P) (messages : List (FeedMessage P)) : MarketData P :=
  messages.foldl (handle decode maxSyncLag) market

end Handlers

end MarketData

/-! ## What leaves the label and the tokens alone -/

namespace MarketState

variable (decode : DirectionsDecoder)

variable (market : MarketState P)

/-- Storing components touches neither label, tokens nor states. -/
theorem frame_upsertComponents (components : List ProtocolComponent) :
    (market.upsertComponents decode components).1.label = market.label ∧
      (market.upsertComponents decode components).1.tokens = market.tokens ∧
      (market.upsertComponents decode components).1.simulationStates =
        market.simulationStates := by
  unfold upsertComponents
  induction components using List.reverseRecOn with
  | nil => exact ⟨rfl, rfl, rfl⟩
  | append_singleton earlier component ih =>
    rw [foldl_concat, ← ih.1, ← ih.2.1, ← ih.2.2]
    unfold upsertComponent noteStored
    dsimp only
    split <;> exact ⟨rfl, rfl, rfl⟩

private theorem frame_removeComponents (ids : List ComponentId) :
    (market.removeComponents ids).label = market.label ∧
      (market.removeComponents ids).tokens = market.tokens := by
  induction ids generalizing market with
  | nil => exact ⟨rfl, rfl⟩
  | cons id rest ih =>
    have removed : (market.removeComponent id).label = market.label ∧
        (market.removeComponent id).tokens = market.tokens := by
      unfold removeComponent noteRemoved
      cases market.components.lookup id <;> exact ⟨rfl, rfl⟩
    exact ⟨(ih _).1.trans removed.1, (ih _).2.trans removed.2⟩

private theorem frame_updateSyncStatus (syncStates : List (String × SynchronizerState))
    (maxSyncLag : Duration) : (market.updateSyncStatus syncStates maxSyncLag).label = market.label ∧
      (market.updateSyncStatus syncStates maxSyncLag).tokens = market.tokens := by
  unfold updateSyncStatus refreshUnsyncedProtocols
  split
  · exact ⟨rfl, rfl⟩
  · dsimp only
    split <;> exact ⟨rfl, rfl⟩

private theorem keyedTokens_upsertTokens {market : MarketState P}
    (keyed : KeyedTokens market.tokens) (tokens : List Token) :
    KeyedTokens (market.upsertTokens tokens).tokens := by
  exact List.foldlRecOn (motive := KeyedTokens) tokens _ keyed fun _ keyed token _ =>
    keyed.insert token

end MarketState

namespace MarketData

variable {decode : DirectionsDecoder} {maxSyncLag : Duration}

variable (market : MarketData P) (message : FeedMessage P) (msg : Update P)

theorem label_storeMessage (market : MarketState P) :
    (storeMessage decode maxSyncLag msg market).label = market.label := by
  rw [storeMessage, (MarketState.frame_updateSyncStatus ..).1]
  exact (MarketState.frame_removeComponents _ _).1.trans (MarketState.frame_upsertComponents ..).1

private theorem label_handleTychoMessage :
    (market.handleTychoMessage decode maxSyncLag msg).data.label = toString msg.blockNumber :=
  label_storeMessage msg _

private theorem overlays_handleTychoMessage :
    (market.handleTychoMessage decode maxSyncLag msg).overlays =
      filterValues (fun entry => msg.blockNumber ≤ entry.validUntil) market.overlays :=
  rfl

theorem label_handleBookUpdate (update : BookUpdate P) :
    (market.handleBookUpdate decode update).data.label = market.data.label :=
  (MarketState.frame_removeComponents _ _).1.trans (MarketState.frame_upsertComponents ..).1

/-- The tokens a message registers. -/
def tokensBrought (market : MarketData P) : FeedMessage P → List Token
  | .update _ msg => msg.newPairs.flatMap FeedComponent.tokens
  | .book update => (dropForeignComponents market.data update).added.flatMap FeedComponent.tokens

/-- A message adds the tokens it brings. -/
theorem tokens_handle : (market.handle decode maxSyncLag message).data.tokens =
      (market.data.upsertTokens (market.tokensBrought message)).tokens := by
  cases message with
  | update stream msg =>
    change (storeMessage decode maxSyncLag msg _).tokens = _
    rw [storeMessage, (MarketState.frame_updateSyncStatus ..).2]
    exact congrArg (fun tokens => List.foldl _ tokens _)
      ((MarketState.frame_removeComponents _ _).2.trans
        (MarketState.frame_upsertComponents ..).2.1)
  | book update =>
    exact (MarketState.frame_removeComponents _ _).2.trans
      (MarketState.frame_upsertComponents ..).2.1

/-- Tokens stay filed under their addresses. -/
theorem keyedTokens_handle {market : MarketData P} (keyed : KeyedTokens market.data.tokens)
    (message : FeedMessage P) :
    KeyedTokens (market.handle decode maxSyncLag message).data.tokens := by
  rw [tokens_handle]
  exact MarketState.keyedTokens_upsertTokens keyed _

/-- **The feed files every token under its address.** -/
theorem keyedTokens_handleAll (messages : List (FeedMessage P)) :
    KeyedTokens
      ((newShared : MarketData P).handleAll decode maxSyncLag messages).data.tokens :=
  ((Trace.fold (handle decode maxSyncLag) newShared messages).invariant
    (fun market => KeyedTokens market.data.tokens)
    keyedTokens_empty
    fun entry _ keyed => keyedTokens_handle keyed entry.2).2

/-! ## Messages that belong to no block -/

/-- The label after the blocks applied so far. -/
def labelAfter (initial : StateLabel) (blocks : List Nat) : StateLabel :=
  blocks.getLast?.elim initial toString

variable (decode maxSyncLag) in
/-- A message without a sync status changes neither the label nor the overlays. -/
def LeavesBlockState : Prop :=
  message.onChainBlock = none →
    (market.handle decode maxSyncLag message).data.label = market.data.label ∧
      (market.handle decode maxSyncLag message).overlays = market.overlays

variable (decode maxSyncLag) in
/-- Messages without a sync status leave block state alone. The label is that of the last message
with one, and an overlay is read until a block above it is applied. -/
structure KeepsBlockState (messages : List (FeedMessage P)) : Prop where
  offChain : ∀ entry ∈ traceFold (handle decode maxSyncLag) market messages,
    LeavesBlockState decode maxSyncLag entry.1 entry.2
  label : ∀ seen, seen <+: messages →
    (market.handleAll decode maxSyncLag seen).data.label =
      labelAfter market.data.label (seen.filterMap FeedMessage.onChainBlock)
  readable : ∀ seen, seen <+: messages → ∀ label entry, market.overlays.lookup label = some entry →
    (∀ block ∈ seen.filterMap FeedMessage.onChainBlock, block ≤ entry.validUntil) →
      (market.handleAll decode maxSyncLag seen).readLabeled label =
        .ok ⟨(market.handleAll decode maxSyncLag seen).data, some (label, entry.states)⟩

/-- A message that goes through a block update without a sync status names the block the market is
labeled with, and no overlay ends before it. -/
def InPlace (market : MarketData P) : FeedMessage P → Prop
  | .update _ msg =>
    msg.syncStates = [] → market.data.label = toString msg.blockNumber ∧
      ∀ entry ∈ market.overlays.entries, msg.blockNumber ≤ entry.2.validUntil
  | .book _ => True

private theorem leavesBlockState_iff :
    LeavesBlockState decode maxSyncLag market message ↔ market.InPlace message := by
  cases message with
  | book update => exact iff_of_true (fun _ => ⟨label_handleBookUpdate market update, rfl⟩) trivial
  | update stream msg =>
    have silent : (FeedMessage.update stream msg).onChainBlock = none ↔ msg.syncStates = [] := by
      simp [FeedMessage.onChainBlock]
    rw [LeavesBlockState, silent]
    apply imp_congr_right
    intro _
    rw [handle, label_handleTychoMessage, overlays_handleTychoMessage, filterValues_eq_self,
      eq_comm]
    simp only [decide_eq_true_eq]

private theorem handle_onChain {market : MarketData P} {message : FeedMessage P}
    {block : Nat} (onChain : message.onChainBlock = some block) :
    (market.handle decode maxSyncLag message).data.label = toString block ∧
      (market.handle decode maxSyncLag message).overlays =
        filterValues (fun entry => block ≤ entry.validUntil) market.overlays := by
  cases message with
  | book update => cases onChain
  | update stream msg =>
    rw [FeedMessage.onChainBlock] at onChain
    split at onChain
    · cases onChain
    · obtain rfl := Option.some.inj onChain
      exact ⟨label_handleTychoMessage market msg, rfl⟩

/-- What the label and the overlays are after messages that leave block state alone. -/
theorem blockState_handleAll {market : MarketData P} {messages : List (FeedMessage P)}
    (leaves : ∀ entry ∈ traceFold (handle decode maxSyncLag) market messages,
      LeavesBlockState decode maxSyncLag entry.1 entry.2) :
    (market.handleAll decode maxSyncLag messages).data.label =
        labelAfter market.data.label (messages.filterMap FeedMessage.onChainBlock) ∧
      ∀ label entry, market.overlays.lookup label = some entry →
        (∀ block ∈ messages.filterMap FeedMessage.onChainBlock, block ≤ entry.validUntil) →
          (market.handleAll decode maxSyncLag messages).overlays.lookup label = some entry := by
  induction messages generalizing market with
  | nil => exact ⟨rfl, fun label entry found _ => found⟩
  | cons message rest ih =>
    obtain ⟨here, later⟩ := forall_mem_cons.mp leaves
    obtain ⟨labels, overlays⟩ := ih later
    cases onChain : message.onChainBlock with
    | none =>
      obtain ⟨sameLabel, sameOverlays⟩ := here onChain
      rw [filterMap_cons_none onChain, ← sameLabel, ← sameOverlays]
      exact ⟨labels, overlays⟩
    | some block =>
      obtain ⟨newLabel, evicted⟩ :
          (market.handle decode maxSyncLag message).data.label = toString block ∧ _ :=
        handle_onChain onChain
      rw [filterMap_cons_some onChain]
      refine ⟨labels.trans ?_, fun label entry found valid => ?_⟩
      · rw [newLabel, labelAfter, labelAfter, getLast?_cons]
        cases (rest.filterMap FeedMessage.onChainBlock).getLast? <;> rfl
      · obtain ⟨first, others⟩ := forall_mem_cons.mp valid
        apply overlays label entry _ others
        rw [evicted, lookup_filterValues, found]
        simpa using first

/-- **Off-chain updates leave block state alone exactly if they are in place.** In every run from
any market, that is so exactly if every message without a sync status that goes through a block
update names the block the market is labeled with, and no overlay ends before it. -/
theorem keepsBlockState_iff (decode : DirectionsDecoder)
    (maxSyncLag : Duration) (market : MarketData P) (messages : List (FeedMessage P)) :
    KeepsBlockState decode maxSyncLag market messages ↔
      ∀ entry ∈ traceFold (handle decode maxSyncLag) market messages,
        entry.1.InPlace entry.2 := by
  constructor
  · intro keeps entry member
    exact (leavesBlockState_iff entry.1 entry.2).mp (keeps.offChain entry member)
  · intro inPlace
    have leaves : ∀ entry ∈ traceFold (handle decode maxSyncLag) market messages,
        LeavesBlockState decode maxSyncLag entry.1 entry.2 := fun entry member =>
      (leavesBlockState_iff entry.1 entry.2).mpr (inPlace entry member)
    have upTo : ∀ seen, seen <+: messages → _ := fun seen early =>
      blockState_handleAll fun entry member =>
        leaves entry (Trace.mem_traceFold_of_prefix early member)
    refine ⟨leaves, fun seen early => (upTo seen early).1, ?_⟩
    intro seen early label entry found valid
    rw [readLabeled, (upTo seen early).2 label entry found valid]

/-- The message of block 5. -/
def sampleBlock : Update Unit where
  newPairs := []
  removedPairs := []
  states := []
  blockNumber := 5
  syncStates := [("uniswap_v2", .ready ⟨5, "0x5", 50⟩)]

/-- A market at block 5 with an overlay that is valid for it. -/
def sampleMarket : MarketData Unit :=
  (newShared.handleTychoMessage (fun _ => none) 0 sampleBlock).registerLabeledState "overlay" ∅ 5

/-- A price level message without a sync status, with a time for its block number. -/
def samplePriceLevels : Update Unit :=
  { newPairs := [], removedPairs := [], states := [], blockNumber := 1700000000 }

/-- The price levels relabel the market and evict the overlay. -/
theorem price_levels_evict_overlay :
    ¬ KeepsBlockState (fun _ => none) 0 sampleMarket [.update .priceLevel samplePriceLevels] := by
  intro keeps
  have read := keeps.readable _ (prefix_refl _) "overlay" ⟨∅, 5⟩ rfl (by simp
    [FeedMessage.onChainBlock, samplePriceLevels])
  have gone : ((sampleMarket.handleAll (fun _ => none) 0
      [.update .priceLevel samplePriceLevels]).readLabeled "overlay").isOk = false := by
    decide +kernel
  rw [read] at gone
  cases gone

end MarketData

end Fynd
