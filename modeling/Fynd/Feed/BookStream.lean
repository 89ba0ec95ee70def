import Fynd.Feed.EventStream

/-!
# Books of venues and the token registry

A venue publishes all its books at once. The stream compares them with what the venue served
before, and the market stores the tokens of the components that are new to the stream. The
registry covers the market as long as refreshed components bring no token of their own.
-/

namespace Fynd

open Foundation List

variable {P : Type}

/-- All the books of a venue, each with its state. -/
abbrev LiquiditySnapshot (P : Type) := List (FeedComponent × P)

/-- The component ids each venue served last. -/
structure BookStream where
  served : Map String (List ComponentId)

namespace BookStream

/-- The ids a venue served last. -/
def servedBy (books : BookStream) (protocolSystem : String) : List ComponentId :=
  (books.served.lookup protocolSystem).getD []

/-- Turns the books a venue published into the change they make to the market. -/
def apply (books : BookStream) (protocolSystem : String)
    (snapshot : LiquiditySnapshot P) : BookUpdate P × BookStream :=
  let served := books.servedBy protocolSystem
  let components := snapshot.map Prod.fst
  let current := (components.map FeedComponent.id).dedup
  ({ protocolSystem := protocolSystem
     added := components.filter fun component => component.id ∉ served
     removed := served.filter fun id => id ∉ current
     updated := components.filter fun component => component.id ∈ served
     states := snapshot.map fun entry => (entry.1.id, entry.2) },
    ⟨books.served.insert protocolSystem current⟩)

/-- Drops everything a venue served. -/
def withdraw (books : BookStream) (protocolSystem : String) : BookUpdate P × BookStream :=
  ({ protocolSystem := protocolSystem
     added := []
     removed := books.servedBy protocolSystem
     updated := []
     states := [] }, ⟨books.served.erase protocolSystem⟩)

end BookStream

/-- An update that leaves the market as it is. -/
def BookUpdate.isEmpty (update : BookUpdate P) : Bool :=
  update.added.isEmpty && update.removed.isEmpty && update.states.isEmpty

/-- What reaches the feed: a message of the protocol or the price-level stream, the books of a
venue, or its withdrawal. -/
inductive FeedInput (P : Type)
  | update (stream : UpdateStream) (msg : Update P)
  | publish (protocolSystem : String) (snapshot : LiquiditySnapshot P)
  | withdraw (protocolSystem : String)

/-- The market and the books served. -/
structure FeedState (P : Type) where
  market : MarketData P
  books : BookStream

namespace FeedState

/-- An empty market and no books. -/
def start : FeedState P := ⟨.newShared, ⟨∅⟩⟩

/-- The message an input comes to, if any, and the books served after it. -/
def message (state : FeedState P) :
    FeedInput P → Option (FeedMessage P) × BookStream
  | .update stream msg => (some (.update stream msg), state.books)
  | .publish protocolSystem snapshot =>
    let (update, books) := state.books.apply protocolSystem snapshot
    (if update.isEmpty then none else some (.book update), books)
  | .withdraw protocolSystem =>
    let (update, books) := state.books.withdraw protocolSystem
    (if update.isEmpty then none else some (.book update), books)

/-- Handles an input. -/
def receive (decode : DirectionsDecoder) (maxSyncLag : Duration)
    (state : FeedState P) (input : FeedInput P) : FeedState P :=
  let (message, books) := state.message input
  ⟨message.elim state.market (state.market.handle decode maxSyncLag), books⟩

end FeedState

/-! ## Tokens that are registered -/

/-- Every token that a stored component lists is registered. -/
def TokensCovered (market : MarketState P) : Prop :=
  ∀ id stored, market.components.lookup id = some stored →
    ∀ address ∈ stored.component.tokens, (market.getToken address).isSome = true

section Registry

variable {decode : DirectionsDecoder} {maxSyncLag : Duration}
  {market : MarketData P} {message : FeedMessage P} {address : Address}

private theorem lookup_tokens_upsertTokens (market : MarketState P) (tokens : List Token)
    (address : Address) :
    ((market.upsertTokens tokens).tokens.lookup address).isSome = true ↔
      address ∈ tokens.map Token.address ∨ (market.tokens.lookup address).isSome = true := by
  unfold MarketState.upsertTokens
  dsimp only
  generalize market.tokens = stored
  induction tokens generalizing stored with
  | nil => simp
  | cons token rest ih =>
    rw [foldl_cons, ih, lookup_insert_ite]
    by_cases here : address = token.address <;> simp [here]

/-- A message whose stored components list only registered tokens keeps the registry covering the
market. -/
theorem TokensCovered.handle (covered : TokensCovered market.data)
    (brought : ∀ component ∈ market.storedBy message, ∀ address ∈ component.tokens,
      address ∈ (market.tokensBrought message).map Token.address ∨
        (market.data.getToken address).isSome = true) :
    TokensCovered (market.handle decode maxSyncLag message).data := by
  have announced := market.handle_announced decode maxSyncLag message
  intro id stored found address listed
  rw [MarketState.getToken, MarketData.tokens_handle]
  refine (lookup_tokens_upsertTokens market.data _ address).mpr ?_
  obtain before | ⟨member, _, _⟩ := announced.origin found
  · exact .inr (covered id stored before address listed)
  · exact brought stored.component member address listed

private theorem mem_tokensBrought {component : FeedComponent} {components : List FeedComponent}
    (member : component ∈ components) (listed : address ∈ (marketComponent component).tokens) :
    address ∈ (components.flatMap FeedComponent.tokens).map Token.address := by
  obtain ⟨token, known, rfl⟩ := mem_map.mp listed
  exact mem_map_of_mem (mem_flatMap.mpr ⟨component, member, known⟩)

/-- A message of the protocol or the price-level stream brings the tokens of its components. -/
theorem TokensCovered.update (covered : TokensCovered market.data) (stream : UpdateStream)
    (msg : Update P) :
    TokensCovered (market.handle decode maxSyncLag (.update stream msg)).data := by
  apply covered.handle
  intro component stored address listed
  obtain ⟨pair, member, rfl⟩ := mem_map.mp stored
  exact .inl (mem_tokensBrought member listed)

/-- Every token of a component that a book update refreshes is registered, or comes with a component
that the update adds. -/
def RefreshesRegistered (market : MarketState P) (update : BookUpdate P) : Prop :=
  let own := dropForeignComponents market update
  ∀ component ∈ own.updated, ∀ token ∈ component.tokens,
    (market.getToken token.address).isSome = true ∨
      token.address ∈ (own.added.flatMap FeedComponent.tokens).map Token.address

private theorem TokensCovered.book (covered : TokensCovered market.data) (maxSyncLag : Duration)
    {update : BookUpdate P} (registered : RefreshesRegistered market.data update) :
    TokensCovered (market.handle decode maxSyncLag (.book update)).data := by
  apply covered.handle
  intro component stored address listed
  obtain ⟨pair, member, rfl⟩ := mem_map.mp stored
  obtain added | updated := mem_append.mp member
  · exact .inl (mem_tokensBrought added listed)
  · obtain ⟨token, known, rfl⟩ := mem_map.mp listed
    exact (registered pair updated token known).symm

end Registry

/-! ## Histories -/

namespace FeedState

variable {decode : DirectionsDecoder} {maxSyncLag : Duration} {state : FeedState P}

/-- The components that a venue refreshes bring no token of their own. -/
def BringsNoToken (state : FeedState P) : FeedInput P → Prop
  | .publish protocolSystem snapshot =>
    RefreshesRegistered state.market.data (state.books.apply protocolSystem snapshot).1
  | .update _ _ | .withdraw _ => True

private theorem tokensCovered_receive (covered : TokensCovered state.market.data)
    {input : FeedInput P} (registered : state.BringsNoToken input) :
    TokensCovered (state.receive decode maxSyncLag input).market.data := by
  unfold receive message
  cases input with
  | update stream msg => exact covered.update stream msg
  | publish protocolSystem snapshot =>
    dsimp only
    split
    · exact covered
    · exact covered.book maxSyncLag registered
  | withdraw protocolSystem =>
    dsimp only
    split
    · exact covered
    · apply covered.book maxSyncLag
      simp [RefreshesRegistered, BookStream.withdraw, dropForeignComponents]

/-- **The token registry covers the market**, in every history in which refreshed components bring
no token of their own. -/
theorem tokensCovered_of_bringsNoToken (decode : DirectionsDecoder)
    (maxSyncLag : Duration) (inputs : List (FeedInput P))
    (registered : ∀ entry ∈ traceFold (receive decode maxSyncLag) start inputs,
      entry.1.BringsNoToken entry.2) :
    TokensCovered (inputs.foldl (receive decode maxSyncLag) start).market.data := by
  have trace := Trace.fold (receive decode maxSyncLag) start inputs
  apply (trace.invariant (fun state => TokensCovered state.market.data) ?_ ?_).2
  · intro id stored found
    simp [start, MarketData.newShared, MarketState.new] at found
  · intro entry member covered
    exact tokensCovered_receive covered (registered entry member)

section Samples

def bookOf (tokens : List Token) : LiquiditySnapshot Unit := [(⟨"x", "rfq:venue", tokens, ∅⟩, ())]

/-- A venue publishes a book twice, the second time over other tokens. -/
def republished (tokens : List Token) : List (FeedInput Unit) :=
  [.publish "rfq:venue" (bookOf [⟨0, 18⟩, ⟨1, 18⟩]), .publish "rfq:venue" (bookOf tokens)]

/-- The second book has the tokens of the first. -/
theorem narrowed_book_covered :
    TokensCovered ((republished [⟨1, 18⟩, ⟨0, 18⟩]).foldl (receive (fun _ => none) 0)
      start).market.data := by
  apply tokensCovered_of_bringsNoToken
  intro entry member
  simp only [republished, traceFold, mem_cons, not_mem_nil, or_false] at member
  obtain rfl | rfl := member
  all_goals
    unfold BringsNoToken RefreshesRegistered
    decide +kernel

/-- The market after the second book lists a third token. -/
def widenedMarket : MarketState Unit :=
  ((republished [⟨0, 18⟩, ⟨1, 18⟩, ⟨2, 18⟩]).foldl (receive (fun _ => none) 0) start).market.data

/-- The third token is stored with the component and not registered. -/
theorem widened_book_not_covered :
    (widenedMarket.components.lookup "x").map (fun stored => stored.component.tokens) =
        some [0, 1, 2] ∧
      widenedMarket.getToken 2 = none ∧ ¬TokensCovered widenedMarket := by
  have tokens : (widenedMarket.components.lookup "x").map (fun stored => stored.component.tokens) =
      some [0, 1, 2] := by decide +kernel
  have missing : widenedMarket.getToken 2 = none := by decide +kernel
  refine ⟨tokens, missing, fun covered => ?_⟩
  obtain ⟨stored, found, listed⟩ := Option.map_eq_some_iff.mp tokens
  have registered := covered "x" stored found 2 (by simp [listed])
  rw [missing] at registered
  cases registered

end Samples

end FeedState

end Fynd
