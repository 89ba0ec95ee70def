import Fynd.Foundation.Trace
import Fynd.Rpc.Tokens
import Mathlib.Logic.Function.Basic

/-!
# Pages of the token list

A request reads the blocks of the derived data, looks for a list cached under them, and otherwise
copies the data, then the market, ranks the tokens and replaces the cached list. Each of these takes
its own lock, and requests and writers run between them. The response names the block of the token
prices only.
-/

namespace Fynd

open Foundation List

variable {F : Type} [LiquidityDouble F]

/-- The blocks of the token prices and of the depths. -/
abbrev TokensKey := Nat × Option Nat

/-- A cached list with the blocks it was computed for. -/
structure TokensCache (F : Type) where
  key : TokensKey
  entries : List (GraphTokenEntry F)

/-- A page that was asked for. -/
structure TokensPage where
  limit : Nat
  offset : Nat
  deriving DecidableEq, Repr

/-- A page of a token list. -/
structure TokensResponse (F : Type) where
  page : TokensPage
  tokens : List (GraphTokenEntry F)
  total : Nat
  block : Nat

/-- The page of a cached list. -/
def tokensResponse (cache : TokensCache F) (page : TokensPage) : TokensResponse F where
  page := page
  tokens := (cache.entries.drop page.offset).take page.limit
  total := cache.entries.length
  block := cache.key.1

/-- The token prices and depths that are stored, with their blocks. -/
structure DerivedTokens where
  prices : Option (Map Address Price × Nat)
  depths : Option (Map ComponentDepthKey Nat × Nat)

/-- The blocks of the stored data, once there are token prices. -/
def DerivedTokens.key (store : DerivedTokens) : Option TokensKey :=
  store.prices.map fun prices => (prices.2, store.depths.map Prod.snd)

/-- Where a request stands. -/
inductive TokensRequest (F : Type)
  | idle
  | accepted (page : TokensPage)
  | keyed (page : TokensPage) (key : TokensKey)
  | missed (page : TokensPage)
  | cloned (page : TokensPage) (key : TokensKey) (prices : Map Address Price)
      (depths : Option (Map ComponentDepthKey Nat))
  | ranked (page : TokensPage) (cache : TokensCache F)

/-- The store, the market's components and tokens, the cached list, the requests underway and the
responses given. -/
structure TokensServer (F : Type) where
  store : DerivedTokens
  topology : MarketTopology
  tokens : Map Address IndexedToken
  cache : Option (TokensCache F)
  requests : Nat → TokensRequest F
  responses : List (TokensResponse F)

/-- A write of the manager or the feed, the arrival of a request, or its next step. -/
inductive TokensAction
  | setPrices (prices : Map Address Price) (block : Nat)
  | setDepths (depths : Map ComponentDepthKey Nat) (block : Nat)
  | writeMarket (topology : MarketTopology) (tokens : Map Address IndexedToken)
  | arrive (request : Nat) (limit offset : Option Nat)
  | proceed (request : Nat)

def defaultTokensLimit : Nat := 1000

def maxTokensLimit : Nat := 1000

namespace TokensServer

/-- A server that has computed and served nothing. -/
def start : TokensServer F := ⟨⟨none, none⟩, ∅, ∅, none, fun _ => .idle, []⟩

/-- What a list would be built from if a request copied everything now. -/
def input (server : TokensServer F) (prices : Map Address Price)
    (depths : Option (Map ComponentDepthKey Nat)) : RankingInput :=
  ⟨server.topology, server.tokens, depths, prices⟩

/-- Moves a request on. -/
def moveTo (server : TokensServer F) (request : Nat) (next : TokensRequest F) : TokensServer F :=
  { server with requests := Function.update server.requests request next }

/-- Answers a request. -/
def respond (server : TokensServer F) (request : Nat) (response : TokensResponse F) :
    TokensServer F :=
  { server.moveTo request .idle with responses := server.responses ++ [response] }

/-- The next step of a request. Without token prices it is refused. -/
def proceed (config : GasTokenConfig) (server : TokensServer F) (request : Nat) : TokensServer F :=
  match server.requests request with
  | .idle => server
  | .accepted page =>
    server.moveTo request (server.store.key.elim .idle (.keyed page))
  | .keyed page key =>
    match server.cache.filter fun cache => cache.key = key with
    | some cache => server.respond request (tokensResponse cache page)
    | none => server.moveTo request (.missed page)
  | .missed page =>
    server.moveTo request (server.store.prices.elim .idle fun prices =>
      .cloned page (prices.2, server.store.depths.map Prod.snd) prices.1
        (server.store.depths.map Prod.fst))
  | .cloned page key prices depths =>
    server.moveTo request
      (.ranked page ⟨key, buildTokenEntries config (server.input prices depths)⟩)
  | .ranked page cache =>
    { server.respond request (tokensResponse cache page) with cache := some cache }

/-- One step. A request whose limit is too high is refused. -/
def step (config : GasTokenConfig) (server : TokensServer F) : TokensAction → TokensServer F
  | .setPrices prices block =>
    { server with store := { server.store with prices := some (prices, block) } }
  | .setDepths depths block =>
    { server with store := { server.store with depths := some (depths, block) } }
  | .writeMarket topology tokens => { server with topology := topology, tokens := tokens }
  | .arrive request limit offset =>
    match server.requests request with
    | .idle =>
      let limit := limit.getD defaultTokensLimit
      if maxTokensLimit < limit then server
      else server.moveTo request (.accepted ⟨limit, offset.getD 0⟩)
    | _ => server
  | .proceed request => server.proceed config request

/-- The server after some steps. -/
def run (config : GasTokenConfig) (actions : List TokensAction) : TokensServer F :=
  actions.foldl (step config) start

end TokensServer

/-- A response is a page of a list. -/
structure SliceOf (entries : List (GraphTokenEntry F)) (response : TokensResponse F) : Prop where
  tokens : response.tokens = (entries.drop response.page.offset).take response.page.limit
  total : response.total = entries.length

/-- Two responses for one block are pages of one ranked list. -/
def PagesConsistent (config : GasTokenConfig) (responses : List (TokensResponse F)) : Prop :=
  ∀ first ∈ responses, ∀ second ∈ responses, first.block = second.block → ∃ input,
    SliceOf (buildTokenEntries config input) first ∧
      SliceOf (buildTokenEntries config input) second

/-! ## Writes that keep the pages consistent -/

/-- The block of the list that a request is building. -/
def TokensRequest.building : TokensRequest F → Option Nat
  | .cloned _ key _ _ => some key.1
  | .ranked _ cache => some cache.key.1
  | .idle | .accepted _ | .keyed _ _ | .missed _ => none

/-- A request that has read a key has read the given one, and will not build a list of its own. -/
def TokensRequest.BoundTo (key : TokensKey) : TokensRequest F → Prop
  | .idle | .accepted _ => True
  | .keyed _ other => other = key
  | .ranked _ cache => cache.key = key
  | .missed _ | .cloned _ _ _ _ => False

namespace TokensServer

section

variable (server : TokensServer F)

/-- A list for a block was served, is cached or is being built. -/
def Seen (block : Nat) : Prop :=
  (∃ response ∈ server.responses, response.block = block) ∨
    (∃ cache, server.cache = some cache ∧ cache.key.1 = block) ∨
    ∃ request, (server.requests request).building = some block

/-- No list for the block of the stored prices was seen. -/
def Unserved : Prop :=
  ∀ prices, server.store.prices = some prices → ¬server.Seen prices.2

/-- The cached list is that of the stored data, and the requests underway are bound to it. -/
def Settled : Prop :=
  ∃ cache, server.cache = some cache ∧ server.store.key = some cache.key ∧
    ∀ request, (server.requests request).BoundTo cache.key

/-- When a write keeps the pages consistent. New prices are for a block of which no list was seen.
Depths come before any list for the block of the prices. A market write comes before any such list
and while no request is between its copy of the data and its copy of the market, or else when the
list is cached and stays so. -/
def Undisturbed : TokensAction → Prop
  | .setPrices _ block => ¬server.Seen block
  | .setDepths _ _ => server.Unserved
  | .writeMarket _ _ =>
    (server.Unserved ∧ ∀ request page key prices depths,
      server.requests request ≠ .cloned page key prices depths) ∨ server.Settled
  | .arrive _ _ _ | .proceed _ => True

end

end TokensServer

/-! ## One list per block -/

section Lists

variable {config : GasTokenConfig} {server : TokensServer F} {data : Nat → RankingInput}

variable (config server data) in
/-- A request that builds a list will have that of its block. -/
def TokensRequest.Builds : TokensRequest F → Prop
  | .cloned _ key prices depths =>
    buildTokenEntries (F := F) config (server.input prices depths) =
      buildTokenEntries config (data key.1)
  | .ranked _ cache => cache.entries = buildTokenEntries config (data cache.key.1)
  | .idle | .accepted _ | .keyed _ _ | .missed _ => True

variable (config server data) in
/-- Every list of a block is the one built from its data. The stored data gives the list of its
block, or that list is settled. -/
structure OneList : Prop where
  responses : ∀ response ∈ server.responses,
    SliceOf (buildTokenEntries config (data response.block)) response
  cache : ∀ cache, server.cache = some cache →
    cache.entries = buildTokenEntries config (data cache.key.1)
  requests : ∀ request, (server.requests request).Builds config server data
  live : ∀ prices, server.store.prices = some prices → server.Seen prices.2 →
    buildTokenEntries (F := F) config
        (server.input prices.1 (server.store.depths.map Prod.fst)) =
      buildTokenEntries config (data prices.2) ∨ server.Settled

private theorem oneList_start : OneList config (TokensServer.start : TokensServer F) data where
  responses := by simp [TokensServer.start]
  cache := by simp [TokensServer.start]
  requests := fun _ => trivial
  live := by simp [TokensServer.start]

variable {cache : TokensCache F} {request : Nat} {next : TokensRequest F}

omit [LiquidityDouble F] in
private theorem sliceOf_tokensResponse {entries : List (GraphTokenEntry F)}
    (same : cache.entries = entries) (page : TokensPage) :
    SliceOf entries (tokensResponse cache page) :=
  ⟨by rw [← same]; rfl, by rw [← same]; rfl⟩

private theorem pagesConsistent_of_oneList (one : OneList config server data) :
    PagesConsistent config server.responses := by
  intro first member second also same
  refine ⟨data first.block, one.responses first member, ?_⟩
  rw [same]
  exact one.responses second also

/-! ## Steps -/

/-- A step that changes neither the stored data nor the market, and shows no new block. -/
theorem OneList.frame (one : OneList config server data) {next : TokensServer F}
    (store : next.store = server.store) (topology : next.topology = server.topology)
    (tokens : next.tokens = server.tokens)
    (responses : ∀ response ∈ next.responses,
      SliceOf (buildTokenEntries config (data response.block)) response)
    (cache : ∀ cache, next.cache = some cache →
      cache.entries = buildTokenEntries config (data cache.key.1))
    (requests : ∀ request, (next.requests request).Builds config server data)
    (seen : ∀ block, next.Seen block → server.Seen block)
    (settled : server.Settled → next.Settled) : OneList config next data := by
  have input : next.input = server.input := by
    funext prices depths
    rw [TokensServer.input, TokensServer.input, topology, tokens]
  refine ⟨responses, cache, fun request => ?_, fun prices stored known => ?_⟩
  · have builds := requests request
    cases state : next.requests request with
    | cloned page key prices depths =>
      rw [state] at builds
      rw [TokensRequest.Builds, input]
      exact builds
    | ranked page list => rwa [state] at builds
    | idle | accepted | keyed | missed => trivial
  · rw [store] at stored ⊢
    rw [input]
    exact (one.live prices stored (seen _ known)).imp_right settled

omit [LiquidityDouble F] in
private theorem forall_requests_moveTo {property : TokensRequest F → Prop} (moved : property next)
    (others : ∀ other, property (server.requests other)) (other : Nat) :
    property ((server.moveTo request next).requests other) :=
  (Function.forall_update_iff _ (p := fun _ state => property state)).mpr
    ⟨moved, fun other _ => others other⟩ other

omit [LiquidityDouble F] in
private theorem building_moveTo {other block : Nat}
    (building : ((server.moveTo request next).requests other).building = some block) :
    next.building = some block ∨ server.Seen block := by
  unfold TokensServer.moveTo at building
  dsimp only at building
  by_cases mine : other = request
  · rw [mine, Function.update_self] at building
    exact .inl building
  · rw [Function.update_of_ne mine] at building
    exact .inr (.inr (.inr ⟨other, building⟩))

section

variable (one : OneList config server data)
include one

/-- A request moves on, to no list that was not seen. -/
theorem OneList.moveTo (builds : next.Builds config server data)
    (seen : ∀ block, next.building = some block → server.Seen block)
    (bound : ∀ cache, server.cache = some cache → server.store.key = some cache.key →
      (server.requests request).BoundTo cache.key → next.BoundTo cache.key) :
    OneList config (server.moveTo request next) data := by
  refine one.frame rfl rfl rfl one.responses one.cache
    (forall_requests_moveTo builds one.requests) ?_ ?_
  · rintro block (served | cached | ⟨other, building⟩)
    · exact .inl served
    · exact .inr (.inl cached)
    · exact (building_moveTo building).elim (seen block) id
  · rintro ⟨cache, found, current, all⟩
    exact ⟨cache, found, current,
      forall_requests_moveTo (bound cache found current (all request)) all⟩

/-- A request is answered with a page of the list of its block. -/
theorem OneList.respond (request : Nat)
    (entries : cache.entries = buildTokenEntries config (data cache.key.1))
    (seen : server.Seen cache.key.1) (page : TokensPage) :
    OneList config (server.respond request (tokensResponse cache page)) data := by
  refine one.frame rfl rfl rfl ?_ one.cache (forall_requests_moveTo trivial one.requests) ?_ ?_
  · intro response member
    obtain earlier | now := mem_append.mp member
    · exact one.responses response earlier
    · rw [mem_singleton.mp now]
      exact sliceOf_tokensResponse entries page
  · rintro block (⟨response, member, rfl⟩ | cached | ⟨other, building⟩)
    · obtain earlier | now := mem_append.mp member
      · exact .inl ⟨response, earlier, rfl⟩
      · rw [mem_singleton.mp now]
        exact seen
    · exact .inr (.inl cached)
    · exact (building_moveTo building).resolve_left (by simp [TokensRequest.building])
  · rintro ⟨held, found, current, all⟩
    exact ⟨held, found, current, forall_requests_moveTo trivial all⟩

/-- A ranked list is cached and served. -/
theorem OneList.store {page : TokensPage} (ranked : server.requests request = .ranked page cache) :
    OneList config { server.respond request (tokensResponse cache page) with
      cache := some cache } data := by
  have entries : cache.entries = buildTokenEntries config (data cache.key.1) := by
    have builds := one.requests request
    rwa [ranked] at builds
  have cached : OneList config { server with cache := some cache } data := by
    refine one.frame rfl rfl rfl one.responses ?_ one.requests ?_ ?_
    · intro held found
      rw [← Option.some.inj found]
      exact entries
    · rintro block (served | ⟨held, found, rfl⟩ | building)
      · exact .inl served
      · rw [← Option.some.inj found]
        exact .inr (.inr ⟨request, by rw [ranked]; rfl⟩)
      · exact .inr (.inr building)
    · rintro ⟨held, found, current, all⟩
      have same : cache.key = held.key := by
        have bound := all request
        rwa [ranked] at bound
      refine ⟨cache, rfl, same ▸ current, ?_⟩
      rw [same]
      exact all
  exact cached.respond request entries (.inr (.inl ⟨cache, rfl, rfl⟩)) page

/-- The data of a block of which no list was seen can be any. -/
theorem OneList.choose {block : Nat} (unseen : ¬server.Seen block) (input : RankingInput) :
    OneList config server (Function.update data block input) := by
  have same {other : Nat} (seen : server.Seen other) :
      Function.update data block input other = data other := by
    apply Function.update_of_ne
    intro here
    exact unseen (here ▸ seen)
  refine ⟨fun response member => ?_, fun cache found => ?_, fun request => ?_,
    fun prices stored seen => ?_⟩
  · rw [same (.inl ⟨response, member, rfl⟩)]
    exact one.responses response member
  · rw [same (.inr (.inl ⟨cache, found, rfl⟩))]
    exact one.cache cache found
  · have builds := one.requests request
    have seen (known : Nat) (building : (server.requests request).building = some known) :
        server.Seen known := .inr (.inr ⟨request, building⟩)
    cases state : server.requests request with
    | cloned page key prices depths =>
      rw [state] at builds
      rw [TokensRequest.Builds, same (seen key.1 (by rw [state]; rfl))]
      exact builds
    | ranked page cache =>
      rw [state] at builds
      rw [TokensRequest.Builds, same (seen cache.key.1 (by rw [state]; rfl))]
      exact builds
    | idle | accepted | keyed | missed => trivial
  · rw [same seen]
    exact one.live prices stored seen

/-- A request copies the stored data. If no list of its block was seen, the block gets its list
now. -/
theorem OneList.clone {page : TokensPage} (missed : server.requests request = .missed page)
    {prices : Map Address Price × Nat} (stored : server.store.prices = some prices) :
    ∃ data, OneList config (server.moveTo request (.cloned page
      (prices.2, server.store.depths.map Prod.snd) prices.1 (server.store.depths.map Prod.fst)))
      data := by
  have unsettled : ¬server.Settled := by
    rintro ⟨_, _, _, all⟩
    have bound := all request
    rw [missed] at bound
    exact bound
  obtain ⟨data, one, same⟩ : ∃ data, OneList config server data ∧
      buildTokenEntries (F := F) config
          (server.input prices.1 (server.store.depths.map Prod.fst)) =
        buildTokenEntries config (data prices.2) := by
    by_cases seen : server.Seen prices.2
    · exact ⟨data, one, (one.live prices stored seen).resolve_right unsettled⟩
    · refine ⟨_, one.choose seen (server.input prices.1 (server.store.depths.map Prod.fst)), ?_⟩
      rw [Function.update_self]
  refine ⟨data, one.responses, one.cache, forall_requests_moveTo same one.requests,
    fun other found _ => .inl ?_⟩
  obtain rfl := Option.some.inj (stored.symm.trans found)
  exact same

/-- A market write while no request is between its copies of the data and of the market. -/
theorem OneList.writeMarket
    (uncloned : ∀ request page key prices depths,
      server.requests request ≠ .cloned page key prices depths)
    (kept : server.Unserved ∨ server.Settled) (topology : MarketTopology)
    (tokens : Map Address IndexedToken) :
    OneList config { server with topology := topology, tokens := tokens } data := by
  refine ⟨one.responses, one.cache, fun request => ?_, fun prices stored seen => ?_⟩
  · have builds := one.requests request
    dsimp only
    cases state : server.requests request with
    | cloned page key prices depths => exact absurd state (uncloned request page key prices depths)
    | ranked page cache => rwa [state] at builds
    | idle | accepted | keyed | missed => trivial
  · obtain unserved | settled := kept
    · exact absurd seen (unserved prices stored)
    · exact .inr settled

end

omit [LiquidityDouble F] in
private theorem TokensServer.Settled.uncloned (settled : server.Settled) (request : Nat)
    (page : TokensPage) (key : TokensKey) (prices : Map Address Price)
    (depths : Option (Map ComponentDepthKey Nat)) :
    server.requests request ≠ .cloned page key prices depths := by
  intro cloned
  obtain ⟨_, _, _, all⟩ := settled
  have bound := all request
  rw [cloned] at bound
  exact bound

/-- A request moves on in its own way. -/
theorem OneList.proceed (one : OneList config server data) (request : Nat) :
    ∃ data, OneList config (server.proceed config request) data := by
  unfold TokensServer.proceed
  cases state : server.requests request with
  | idle => exact ⟨data, one⟩
  | accepted page =>
    refine ⟨data, one.moveTo ?_ ?_ ?_⟩
    · cases server.store.key <;> trivial
    · cases server.store.key <;> simp [TokensRequest.building]
    · intro cache _ current _
      rw [current]
      rfl
  | keyed page key =>
    dsimp only
    split
    · rename_i cache hit
      obtain ⟨found, _⟩ := Option.filter_eq_some_iff.mp hit
      exact ⟨data,
        one.respond request (one.cache cache found) (.inr (.inl ⟨cache, found, rfl⟩)) page⟩
    · rename_i miss
      refine ⟨data, one.moveTo trivial (by simp [TokensRequest.building]) ?_⟩
      intro cache found _ bound
      rw [state] at bound
      have same : key = cache.key := bound
      simp [found, same] at miss
  | missed page =>
    dsimp only
    cases stored : server.store.prices with
    | none =>
      exact ⟨data, one.moveTo trivial (by simp [TokensRequest.building]) fun _ _ _ _ => trivial⟩
    | some prices => exact one.clone state stored
  | cloned page key prices depths =>
    have builds := one.requests request
    rw [state] at builds
    refine ⟨data, one.moveTo builds ?_ ?_⟩
    · intro block building
      exact .inr (.inr ⟨request, by rw [state]; exact building⟩)
    · intro _ _ _ bound
      rw [state] at bound
      exact bound.elim
  | ranked page cache => exact ⟨data, one.store state⟩

/-- **A step keeps one list per block**, if it does not disturb the lists that were seen. -/
theorem OneList.step (one : OneList config server data) {action : TokensAction}
    (undisturbed : server.Undisturbed action) :
    ∃ data, OneList config (server.step config action) data := by
  cases action with
  | setPrices prices block =>
    refine ⟨data, one.responses, one.cache, one.requests, fun stored found seen => ?_⟩
    rw [← Option.some.inj found] at seen
    exact absurd seen undisturbed
  | setDepths depths block =>
    refine ⟨data, one.responses, one.cache, one.requests, fun prices stored seen => ?_⟩
    exact absurd seen (undisturbed prices stored)
  | writeMarket topology tokens =>
    obtain ⟨unserved, uncloned⟩ | settled := undisturbed
    · exact ⟨data, one.writeMarket uncloned (.inl unserved) topology tokens⟩
    · exact ⟨data, one.writeMarket settled.uncloned (.inr settled) topology tokens⟩
  | arrive request limit offset =>
    refine ⟨data, ?_⟩
    unfold TokensServer.step
    dsimp only
    split
    · split
      · exact one
      · exact one.moveTo trivial (by simp [TokensRequest.building]) fun _ _ _ _ => trivial
    · exact one
  | proceed request => exact one.proceed request

end Lists

/-- **Token list pages are consistent** in every run whose writes do not disturb the lists that were
seen. -/
theorem pagesConsistent_of_undisturbed (config : GasTokenConfig) (actions : List TokensAction)
    (undisturbed : ∀ entry ∈ traceFold (TokensServer.step config)
      (TokensServer.start : TokensServer F) actions, entry.1.Undisturbed entry.2) :
    PagesConsistent config (TokensServer.run config actions : TokensServer F).responses := by
  have trace := Trace.fold (TokensServer.step config) (TokensServer.start : TokensServer F) actions
  have one := (trace.invariant (fun server => ∃ data, OneList config server data)
    ⟨fun _ => ⟨∅, ∅, none, ∅⟩, oneList_start⟩ fun entry member holds => by
      obtain ⟨data, one⟩ := holds
      exact one.step (undisturbed entry member)).2
  obtain ⟨data, one⟩ := one
  exact pagesConsistent_of_oneList one

section Samples

/-- Raw units of the routable and the native token are the same. -/
def sameGasToken : GasTokenConfig := ⟨0, 1000000000000000000, ⟨1, 1⟩⟩

def twoTokenMarket : TokensAction :=
  .writeMarket (mapOfList [("x", ⟨[0, 1], [(0, 1), (1, 0)]⟩)])
    (mapOfList [(0, ⟨"A", 18, 0, [], 100⟩), (1, ⟨"B", 18, 0, [], 100⟩)])

def pricedTokens (block : Nat) : TokensAction :=
  .setPrices (mapOfList [(0, ⟨1, 1⟩), (1, ⟨1, 1⟩)]) block

/-- Token 1 trades deeper than token 0. -/
def deeperSecond (block : Nat) : TokensAction :=
  .setDepths (mapOfList [(("x", (0, 1)), 1), (("x", (1, 0)), 5)]) block

/-- A request for the first page goes through all its steps. -/
def wholeRequest (request : Nat) : List TokensAction :=
  .arrive request none none :: List.replicate 5 (.proceed request)

/-- The depths of the block come before its prices. -/
def orderlyRun : List TokensAction :=
  [twoTokenMarket, deeperSecond 7, pricedTokens 7] ++ wholeRequest 0 ++ wholeRequest 1

/-- The depths of the block come after a list was served. -/
def lateDepthsRun : List TokensAction :=
  [twoTokenMarket, pricedTokens 7] ++ wholeRequest 0 ++ deeperSecond 7 :: wholeRequest 1

/-- Pages of a server whose depths come first. -/
theorem orderly_pages_consistent :
    PagesConsistent sameGasToken
      (TokensServer.run sameGasToken orderlyRun : TokensServer ℚ).responses := by
  apply pagesConsistent_of_undisturbed
  intro entry member
  simp only [orderlyRun, wholeRequest, List.replicate, cons_append, nil_append,
    traceFold, mem_cons, not_mem_nil, or_false] at member
  rcases member with rfl | rfl | rfl | rfl | rfl | rfl | rfl | rfl | rfl | rfl | rfl | rfl | rfl |
    rfl | rfl
  · refine .inl ⟨fun prices stored => ?_, fun request page key prices depths cloned => ?_⟩
    · cases stored
    · cases cloned
  · intro prices stored
    cases stored
  · rintro (⟨response, served, _⟩ | ⟨cache, cached, _⟩ | ⟨request, building⟩)
    · cases served
    · cases cached
    · cases building
  all_goals trivial

/-- The two responses of a run, by the addresses they list. -/
def listedAddresses (actions : List TokensAction) : List (Nat × TokensPage × List Address) :=
  (TokensServer.run sameGasToken actions : TokensServer ℚ).responses.map fun response =>
    (response.block, response.page, response.tokens.map GraphTokenEntry.address)

/-- The same page of the same block lists the tokens in another order once the depths are in. -/
theorem late_depths_pages_differ :
    listedAddresses lateDepthsRun = [(7, ⟨1000, 0⟩, [0, 1]), (7, ⟨1000, 0⟩, [1, 0])] ∧
      ¬PagesConsistent sameGasToken
        (TokensServer.run sameGasToken lateDepthsRun : TokensServer ℚ).responses := by
  have listed : listedAddresses lateDepthsRun =
      [(7, ⟨1000, 0⟩, [0, 1]), (7, ⟨1000, 0⟩, [1, 0])] := by decide +kernel
  refine ⟨listed, fun consistent => ?_⟩
  unfold listedAddresses at listed
  obtain ⟨first, rest, split, one, others⟩ := map_eq_cons_iff.mp listed
  obtain ⟨second, none, rfl, other, _⟩ := map_eq_cons_iff.mp others
  simp only [Prod.mk.injEq] at one other
  obtain ⟨input, here, there⟩ := consistent first (by simp [split]) second (by simp [split])
    (one.1.trans other.1.symm)
  have same : first.tokens = second.tokens := by
    rw [here.tokens, there.tokens, one.2.1, other.2.1]
  rw [same, other.2.2] at one
  exact absurd one.2.2 (by decide)

end Samples

end Fynd
