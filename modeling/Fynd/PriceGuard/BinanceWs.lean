import Fynd.Foundation.Trace
import Fynd.Types.Market

/-!
# The ticker cache of the Binance source

The worker keeps the last bid and ask of every Binance symbol it hears of. A ticker quoted
in USDT or USDC also fills in the same price for every other USD stablecoin, so that coins
Binance does not list are priced as if they were USDT or USDC. Such a filled-in entry is only
made where the cache has none. Entries heard and entries filled in are not told apart.

An entry with a ticker of its own always holds the latest one. A filled-in entry keeps the first
price it was given. It is the latest one for as long as no later ticker is due to change it.
-/

namespace Fynd

open Foundation List

/-! ## The texts of symbols -/

/-- The text before an ending. -/
def stripSuffix (text ending : String) : Option String :=
  (text.toList.dropSuffix? ending.toList).map String.ofList

/-- The text after a beginning. -/
def stripPrefix (text beginning : String) : Option String :=
  (text.toList.dropPrefix? beginning.toList).map String.ofList

private theorem stripSuffix_eq_some_iff {text ending base : String} :
    stripSuffix text ending = some base ↔ text = base ++ ending := by
  rw [stripSuffix, Option.map_eq_some_iff]
  constructor
  · rintro ⟨front, found, rfl⟩
    obtain ⟨back, whole, same⟩ := dropSuffix?_eq_some_iff.mp found
    rw [← String.toList_inj, whole, String.toList_append, String.toList_ofList, eq_of_beq same]
  · rintro rfl
    refine ⟨base.toList, dropSuffix?_eq_some_iff.mpr ⟨ending.toList, ?_, ?_⟩, ?_⟩
    · exact String.toList_append
    · exact BEq.refl _
    · exact String.ofList_toList

/-- The USD-pegged stablecoins of the shared list. The source keeps them in a hash set. Each names
another cache entry, so the order in which they are visited does not show. -/
def usdStablecoins : List String :=
  ["USDC", "USDT", "DAI", "USDS", "USDE", "FDUSD", "FRAX", "TUSD", "PYUSD", "LUSD", "GUSD", "BUSD",
    "USDP", "GHO", "CRVUSD", "RLUSD", "DOLA", "USDD", "MIM", "USDB", "ALUSD", "CUSD", "MKUSD",
    "USD0"]

/-! ## Messages and the cache -/

/-- Cached ticker data from the bookTicker stream. -/
structure TickerData (F : Type) where
  bid : F
  ask : F
  timestampMs : Nat
  deriving DecidableEq, Repr

/-- The tickers by upper-case Binance symbol. -/
abbrev PriceCache (F : Type) := Map String (TickerData F)

/-- A bookTicker message: symbol, best bid, best ask, event time. -/
structure BookTickerMsg where
  s : Option String
  b : String
  a : String
  eventTime : Option Nat
  deriving DecidableEq, Repr

/-- A frame of the socket. -/
inductive WsMessage
  | text (body : String)
  | close (reason : String)
  | other
  deriving DecidableEq, Repr

/-- How texts are read: the decoder of ticker messages and the parser of decimal prices. -/
structure TickerReader (F : Type) where
  fromStr : String → Option BookTickerMsg
  parse : String → Option F

variable {F : Type}

/-- Adds an entry where there is none. -/
def orInsert (ticker : TickerData F) (cache : PriceCache F) (symbol : String) : PriceCache F :=
  if symbol ∈ cache then cache else cache.insert symbol ticker

/-- For a ticker like ETHUSDT, adds entries ETHDAI, ETHGHO and so on for the USD stablecoins that
have none. A pair that starts with the quote asset is handled in the same way. -/
def injectStablecoinTickers (cache : PriceCache F) (symbol : String) (ticker : TickerData F) :
    PriceCache F :=
  inject ["USDT", "USDC"]
where
  inject : List String → PriceCache F
    | [] => cache
    | quote :: rest =>
      match stripSuffix symbol quote with
      | some base =>
        ((usdStablecoins.filter fun stable => stable ≠ quote).map fun stable =>
          base ++ stable).foldl (orInsert ticker) cache
      | none =>
        match stripPrefix symbol quote with
        | some base =>
          ((usdStablecoins.filter fun stable => stable ≠ quote).map fun stable =>
            stable ++ base).foldl (orInsert ticker) cache
        | none => inject rest

/-! ## Which entries a ticker fills in -/

/-- The symbols a ticker fills in. -/
def syntheticSymbols (symbol : String) : List String :=
  filled ["USDT", "USDC"]
where
  filled : List String → List String
    | [] => []
    | quote :: rest =>
      match stripSuffix symbol quote with
      | some base =>
        (usdStablecoins.filter fun stable => stable ≠ quote).map fun stable => base ++ stable
      | none =>
        match stripPrefix symbol quote with
        | some base =>
          (usdStablecoins.filter fun stable => stable ≠ quote).map fun stable => stable ++ base
        | none => filled rest

private theorem inject_eq_foldl (cache : PriceCache F) (symbol : String) (ticker : TickerData F)
    (quotes : List String) :
    injectStablecoinTickers.inject cache symbol ticker quotes =
      (syntheticSymbols.filled symbol quotes).foldl (orInsert ticker) cache := by
  induction quotes with
  | nil => rfl
  | cons quote rest ih =>
    rw [injectStablecoinTickers.inject, syntheticSymbols.filled]
    cases stripSuffix symbol quote with
    | some base => rfl
    | none =>
      cases stripPrefix symbol quote with
      | some base => rfl
      | none => exact ih

private theorem lookup_orInsert (ticker : TickerData F) (cache : PriceCache F)
    (symbol key : String) :
    (orInsert ticker cache symbol).lookup key =
      (cache.lookup key).or (if key = symbol then some ticker else none) := by
  unfold orInsert
  by_cases cached : symbol ∈ cache
  · rw [if_pos cached]
    by_cases same : key = symbol
    · subst same
      obtain ⟨value, found⟩ := Option.isSome_iff_exists.mp (AList.lookup_isSome.mpr cached)
      simp [found]
    · simp [same]
  · rw [if_neg cached, lookup_insert_ite]
    by_cases same : key = symbol
    · subst same
      simp [AList.lookup_eq_none.mpr cached]
    · simp [same]

private theorem lookup_injectStablecoinTickers (cache : PriceCache F) (symbol key : String)
    (ticker : TickerData F) :
    (injectStablecoinTickers cache symbol ticker).lookup key =
      (cache.lookup key).or (if key ∈ syntheticSymbols symbol then some ticker else none) := by
  rw [injectStablecoinTickers, inject_eq_foldl, ← syntheticSymbols]
  induction syntheticSymbols symbol generalizing cache with
  | nil => simp
  | cons first rest ih =>
    rw [foldl_cons, ih, lookup_orInsert, Option.or_assoc]
    congr 1
    by_cases same : key = first <;> simp [same]

/-- A symbol that starts with USDT and ends with USDC is read as a pair in USDT, the wrong way
round. -/
def ReadAsReversed (symbol : String) : Prop :=
  (∃ base, stripPrefix symbol "USDT" = some base) ∧ ∃ base, stripSuffix symbol "USDC" = some base

instance (symbol : String) : Decidable (ReadAsReversed symbol) :=
  decidable_of_iff
    ((stripPrefix symbol "USDT").isSome ∧ (stripSuffix symbol "USDC").isSome)
    (by simp only [ReadAsReversed, Option.isSome_iff_exists])

private theorem stripSuffix_usdt_eq_none (base : String) :
    stripSuffix (base ++ "USDC") "USDT" = none := by
  by_contra found
  obtain ⟨other, found⟩ := Option.ne_none_iff_exists'.mp found
  have letters := congrArg String.toList (stripSuffix_eq_some_iff.mp found)
  rw [String.toList_append, String.toList_append] at letters
  have endings := append_inj_right' letters (by simp)
  simp at endings

private theorem mem_syntheticSymbols {base stable symbol : String}
    (listed : stable ∈ usdStablecoins) (quoted : symbol = base ++ "USDT" ∨ symbol = base ++ "USDC")
    (plain : ¬ReadAsReversed symbol) (differs : symbol ≠ base ++ stable) :
    base ++ stable ∈ syntheticSymbols symbol := by
  have member (quote : String) (same : symbol = base ++ quote) :
      base ++ stable ∈
        (usdStablecoins.filter fun stable => stable ≠ quote).map fun stable => base ++ stable := by
    refine mem_map.mpr ⟨stable, mem_filter.mpr ⟨listed, ?_⟩, rfl⟩
    rw [decide_eq_true_eq]
    rintro rfl
    exact differs same
  rw [syntheticSymbols, syntheticSymbols.filled]
  obtain same | same := quoted
  · rw [stripSuffix_eq_some_iff.mpr same]
    exact member "USDT" same
  · have stripped := stripSuffix_eq_some_iff.mpr same
    have unstripped : stripSuffix symbol "USDT" = none := same ▸ stripSuffix_usdt_eq_none base
    have kept : stripPrefix symbol "USDT" = none := by
      by_contra found
      exact plain ⟨Option.ne_none_iff_exists'.mp found, base, stripped⟩
    rw [unstripped, kept]
    simp only [syntheticSymbols.filled, stripped]
    exact member "USDC" same

/-! ## Messages -/

variable [Zero F] [LE F] [DecidableLE F]

/-- The symbol and ticker of a message that parses and has positive prices. -/
def acceptedTicker (reader : TickerReader F) (nowMs : Nat) (text : String) :
    Option (String × TickerData F) := do
  let ticker ← reader.fromStr text
  let symbol ← ticker.s
  let bid := (reader.parse ticker.b).getD 0
  let ask := (reader.parse ticker.a).getD 0
  if bid ≤ 0 ∨ ask ≤ 0 then none
  else some (symbol, { bid, ask, timestampMs := ticker.eventTime.getD nowMs })

/-- Parses a bookTicker message and upserts the bid and ask into the ticker cache. -/
def updatePriceCache (reader : TickerReader F) (nowMs : Nat) (cache : PriceCache F)
    (text : String) : PriceCache F :=
  match acceptedTicker reader nowMs text with
  | none => cache
  | some (symbol, ticker) =>
    injectStablecoinTickers (cache.insert symbol ticker) symbol ticker

/-- Routes a frame by type: only text frames touch the cache. -/
def handleMessage (reader : TickerReader F) (nowMs : Nat) (cache : PriceCache F) :
    WsMessage → PriceCache F
  | .text body => updatePriceCache reader nowMs cache body
  | .close _ => cache
  | .other => cache

/-! ## Runs of the worker -/

/-- The cache, with the tickers accepted so far, the latest first. -/
structure TickerHistory (F : Type) where
  cache : PriceCache F := ∅
  accepted : List (String × TickerData F) := []

namespace TickerHistory

/-- The latest ticker of one of some symbols. -/
def latest (state : TickerHistory F) (symbols : List String) : Option (TickerData F) :=
  (state.accepted.find? fun heard => heard.1 ∈ symbols).map (·.2)

/-- The tickers a frame brings. -/
def heard (reader : TickerReader F) (nowMs : Nat) : WsMessage → Option (String × TickerData F)
  | .text body => acceptedTicker reader nowMs body
  | .close _ => none
  | .other => none

/-- Handles a frame that arrives at some time. -/
def receive (reader : TickerReader F) (state : TickerHistory F) (input : Nat × WsMessage) :
    TickerHistory F where
  cache := handleMessage reader input.1 state.cache input.2
  accepted := (heard reader input.1 input.2).toList ++ state.accepted

variable {reader : TickerReader F} {state : TickerHistory F} {input : Nat × WsMessage}
  {symbol : String} {ticker : TickerData F}

private theorem receive_of_ignored (ignored : heard reader input.1 input.2 = none) :
    receive reader state input = state := by
  obtain ⟨nowMs, message⟩ := input
  cases message with
  | text body =>
    have dropped : acceptedTicker reader nowMs body = none := ignored
    simp only [receive, handleMessage, updatePriceCache, heard, dropped, Option.toList_none,
      nil_append]
  | close | other => rfl

section

variable (brought : heard reader input.1 input.2 = some (symbol, ticker))
include brought

private theorem accepted_receive :
    (receive reader state input).accepted = (symbol, ticker) :: state.accepted := by
  rw [receive, brought]
  rfl

private theorem lookup_receive (key : String) : (receive reader state input).cache.lookup key =
      if key = symbol then some ticker
      else (state.cache.lookup key).or
        (if key ∈ syntheticSymbols symbol then some ticker else none) := by
  obtain ⟨nowMs, message⟩ := input
  cases message with
  | text body =>
    have parsed : acceptedTicker reader nowMs body = some (symbol, ticker) := brought
    simp only [receive, handleMessage, updatePriceCache, parsed,
      lookup_injectStablecoinTickers, lookup_insert_ite]
    split <;> rfl
  | close | other => cases brought

private theorem latest_receive (symbols : List String) :
    (receive reader state input).latest symbols =
      if symbol ∈ symbols then some ticker else state.latest symbols := by
  rw [latest, accepted_receive brought, find?_cons]
  by_cases member : symbol ∈ symbols
  · simp [member]
  · simp [member, latest]

end

/-- Every symbol with a ticker of its own is cached with the latest one. -/
def HoldsReal (state : TickerHistory F) : Prop :=
  ∀ symbol ticker, state.latest [symbol] = some ticker → state.cache.lookup symbol = some ticker

/-- A base in a stablecoin with no ticker of its own is cached with the latest ticker of the base
in USDT or USDC, if there is one. -/
def SyntheticFollows (state : TickerHistory F) : Prop :=
  ∀ base, ∀ stable ∈ usdStablecoins, state.latest [base ++ stable] = none →
    ∀ ticker, state.latest [base ++ "USDT", base ++ "USDC"] = some ticker →
      state.cache.lookup (base ++ stable) = some ticker

variable (reader state input) in
/-- A frame leaves no filled-in entry behind: its symbol is not one read the wrong way round, and
each symbol it fills in has a ticker of its own, is not cached yet or is cached with this very
ticker. -/
def LeavesNoneBehind : Prop :=
  ∀ symbol ticker, heard reader input.1 input.2 = some (symbol, ticker) →
    ¬ReadAsReversed symbol ∧
      ∀ key ∈ syntheticSymbols symbol, state.latest [key] ≠ none ∨
        state.cache.lookup key = none ∨ state.cache.lookup key = some ticker

instance [DecidableEq F] : Decidable (LeavesNoneBehind reader state input) :=
  decidable_of_iff
    (∀ found ∈ heard reader input.1 input.2, ¬ReadAsReversed found.1 ∧
      ∀ key ∈ syntheticSymbols found.1, state.latest [key] ≠ none ∨
        state.cache.lookup key = none ∨ state.cache.lookup key = some found.2)
    (by simp only [LeavesNoneBehind, Option.mem_def, Prod.forall])

/-- Filling in never touches an entry that is there. -/
theorem HoldsReal.receive (holds : HoldsReal state) (input : Nat × WsMessage) :
    HoldsReal (receive reader state input) := by
  cases brought : heard reader input.1 input.2 with
  | none =>
    rw [receive_of_ignored brought]
    exact holds
  | some entry =>
    obtain ⟨symbol, ticker⟩ := entry
    intro key latest last
    simp only [latest_receive brought, mem_singleton] at last
    rw [lookup_receive brought]
    by_cases same : symbol = key
    · rw [if_pos same] at last
      rw [if_pos same.symm]
      exact last
    · rw [if_neg same] at last
      rw [if_neg (Ne.symm same), holds key latest last, Option.some_or]

private theorem SyntheticFollows.receive (follows : SyntheticFollows state)
    (fresh : LeavesNoneBehind reader state input) :
    SyntheticFollows (receive reader state input) := by
  cases brought : heard reader input.1 input.2 with
  | none =>
    rw [receive_of_ignored brought]
    exact follows
  | some entry =>
    obtain ⟨symbol, ticker⟩ := entry
    obtain ⟨plain, room⟩ := fresh symbol ticker brought
    intro base stable listed unheard latest last
    simp only [latest_receive brought, mem_singleton] at unheard
    have differs : symbol ≠ base ++ stable := by
      intro same
      rw [if_pos same] at unheard
      cases unheard
    rw [if_neg differs] at unheard
    rw [latest_receive brought] at last
    rw [lookup_receive brought, if_neg (Ne.symm differs)]
    by_cases quoted : symbol ∈ [base ++ "USDT", base ++ "USDC"]
    · rw [if_pos quoted] at last
      cases last
      have member := mem_syntheticSymbols listed (by simpa using quoted) plain differs
      rw [if_pos member]
      obtain own | missing | same := room _ member
      · exact absurd unheard own
      · rw [missing, Option.none_or]
      · rw [same, Option.some_or]
    · rw [if_neg quoted] at last
      rw [follows base stable listed unheard latest last, Option.some_or]

/-- The source before its first frame. -/
def start : TickerHistory F := {}

/-- A property of the state holds after every frame of a run. -/
def Throughout (reader : TickerReader F) (inputs : List (Nat × WsMessage))
    (property : TickerHistory F → Prop) : Prop :=
  ∀ entry ∈ traceFold (receive reader) start inputs, property (receive reader entry.1 entry.2)

/-- **Synthetic stablecoin prices.** After every frame of every run the symbols with a ticker of
their own are cached with the latest one. In a run none of whose frames leaves a filled-in entry
behind, the filled-in entries follow the latest ticker of their base in USDT or USDC. -/
theorem synthetic_prices_follow (reader : TickerReader F) (inputs : List (Nat × WsMessage)) :
    Throughout reader inputs HoldsReal ∧
    ((∀ entry ∈ traceFold (receive reader) start inputs,
        LeavesNoneBehind reader entry.1 entry.2) →
      Throughout reader inputs SyntheticFollows) := by
  have trace := Trace.fold (receive reader) start inputs
  constructor
  · have along := trace.invariant HoldsReal (by intro symbol ticker last; cases last)
      fun entry _ holds => holds.receive entry.2
    exact fun entry member => (along.1 entry member).2
  · intro fresh
    have along := trace.invariant SyntheticFollows
      (by intro base stable _ _ ticker last; cases last)
      fun entry member follows => follows.receive (fresh entry member)
    exact fun entry member => (along.1 entry member).2

end TickerHistory

/-! ## Prices read from the cache -/

section Resolve

/-- Quote assets used for intermediate price routing. -/
def intermediateAssets : List String := ["USDT", "USDC", "ETH", "BTC"]

/-- Resolved price lookup result. -/
structure PriceLookup (F : Type) where
  price : F
  timestampMs : Nat
  deriving DecidableEq, Repr

variable {F : Type} [Zero F] [LT F] [DecidableLT F] [One F] [Div F]

section

variable (cache : PriceCache F)

/-- Looks up a sell-side price: the bid of the direct pair, or the inverse of the reverse pair's
ask. -/
def lookupSellPrice (base quote : String) : Option (PriceLookup F) :=
  match (cache.lookup (base ++ quote)).filter fun ticker => 0 < ticker.bid with
  | some ticker => some ⟨ticker.bid, ticker.timestampMs⟩
  | none =>
    match (cache.lookup (quote ++ base)).filter fun ticker => 0 < ticker.ask with
    | some ticker => some ⟨1 / ticker.ask, ticker.timestampMs⟩
    | none => none

/-- Looks up a buy-side price: the ask of the direct pair, or the inverse of the reverse pair's
bid. -/
def lookupBuyPrice (base quote : String) : Option (PriceLookup F) :=
  match (cache.lookup (base ++ quote)).filter fun ticker => 0 < ticker.ask with
  | some ticker => some ⟨ticker.ask, ticker.timestampMs⟩
  | none =>
    match (cache.lookup (quote ++ base)).filter fun ticker => 0 < ticker.bid with
    | some ticker => some ⟨1 / ticker.bid, ticker.timestampMs⟩
    | none => none

/-- The price through one intermediate asset. -/
def priceThrough (symIn symOut intermediate : String) : Option (PriceLookup F) :=
  if intermediate = symIn ∨ intermediate = symOut then none
  else do
    let sellPrice ← lookupSellPrice cache symIn intermediate
    let buyPrice ← lookupBuyPrice cache symOut intermediate
    if 0 < buyPrice.price then
      some ⟨sellPrice.price / buyPrice.price, min sellPrice.timestampMs buyPrice.timestampMs⟩
    else none

/-- Resolves a price between two symbols, trying direct and reverse pairs first, then routing
through intermediate assets. -/
def resolvePrice (symIn symOut : String) : Option (PriceLookup F) :=
  (lookupSellPrice cache symIn symOut).or
    (intermediateAssets.findSome? (priceThrough cache symIn symOut))

end

variable [LE F] [DecidableLE F]

/-- **Prices are the latest bids.** After every frame of every run a pair with a ticker of its own
is sold at its latest bid, if that is positive. -/
theorem TickerHistory.resolvePrice_latest (reader : TickerReader F)
    (inputs : List (Nat × WsMessage)) :
    Throughout reader inputs fun state => ∀ symIn symOut ticker,
      state.latest [symIn ++ symOut] = some ticker → 0 < ticker.bid →
        resolvePrice state.cache symIn symOut = some ⟨ticker.bid, ticker.timestampMs⟩ := by
  intro entry member symIn symOut ticker last positive
  have along := (Trace.fold (receive reader) start inputs).invariant HoldsReal
    (fun _ _ last => nomatch last) fun entry _ holds => holds.receive entry.2
  have cached := (along.1 entry member).2 _ ticker last
  simp [resolvePrice, lookupSellPrice, cached, Option.filter_some, positive]

end Resolve

/-! ## Two tickers of one pair -/

section Samples

open TickerHistory

structure Dollars where
  amount : Nat
  deriving DecidableEq, Repr

instance : Zero Dollars := ⟨⟨0⟩⟩

instance : One Dollars := ⟨⟨1⟩⟩

instance : Div Dollars := ⟨fun left right => ⟨left.amount / right.amount⟩⟩

instance : LE Dollars := ⟨fun left right => left.amount ≤ right.amount⟩

instance : LT Dollars := ⟨fun left right => left.amount < right.amount⟩

instance : DecidableLE Dollars := fun left right => Nat.decLe left.amount right.amount

instance : DecidableLT Dollars := fun left right => Nat.decLt left.amount right.amount

def digitsValue (digits : List Char) : Nat :=
  digits.foldl (fun value digit => 10 * value + (digit.toNat - '0'.toNat)) 0

def wordsOf (line : String) : List (List Char) :=
  line.toList.splitOn ' '

/-- Texts of a symbol, a price and a time. -/
def wordReader : TickerReader Dollars where
  fromStr := fun text =>
    match wordsOf text with
    | [symbol, price, time] =>
      some { s := some (.ofList symbol), b := .ofList price, a := .ofList price,
             eventTime := some (digitsValue time) }
    | _ => none
  parse := fun text => some ⟨digitsValue text.toList⟩

/-- Tickers of two pairs, one of them sent again, a text that is none and the end of the
connection. ETHDAI is filled in by ETHUSDT before it has a ticker of its own. -/
def tickersRun : List (Nat × WsMessage) :=
  [(1, .text "ETHUSDT 2000 1"), (2, .text "ETHDAI 1990 2"), (3, .text "subscribed"),
    (4, .text "ETHDAI 1980 4"), (5, .text "ETHUSDT 2000 1"), (6, .close "going away")]

/-- The entries ETHUSDT fills in follow it, and one with tickers of its own keeps those. -/
theorem tickers_followed :
    (tickersRun.foldl (receive wordReader) start).cache.lookup "ETHGHO" =
        some ⟨⟨2000⟩, ⟨2000⟩, 1⟩ ∧
      Throughout wordReader tickersRun SyntheticFollows :=
  ⟨by decide +kernel, (synthetic_prices_follow wordReader tickersRun).2 (by decide +kernel)⟩

/-- ETHDAI is first sold at the price filled in for it, and then at the bids of its own tickers,
with other frames in between. -/
theorem own_tickers_priced :
    resolvePrice ((tickersRun.take 1).foldl (receive wordReader) start).cache "ETH" "DAI" =
        some ⟨⟨2000⟩, 1⟩ ∧
      resolvePrice ((tickersRun.take 3).foldl (receive wordReader) start).cache "ETH" "DAI" =
        some ⟨⟨1990⟩, 2⟩ ∧
      resolvePrice ((tickersRun.take 6).foldl (receive wordReader) start).cache "ETH" "DAI" =
        some ⟨⟨1980⟩, 4⟩ := by
  have priced := resolvePrice_latest wordReader tickersRun
  refine ⟨by decide +kernel, ?_, ?_⟩
  · exact priced _ (.tail _ (.tail _ (.head _))) "ETH" "DAI"
      ⟨⟨1990⟩, ⟨1990⟩, 2⟩ (by decide +kernel) (by decide)
  · exact priced _ (getLast_mem (cons_ne_nil _ _)) "ETH" "DAI"
      ⟨⟨1980⟩, ⟨1980⟩, 4⟩ (by decide +kernel) (by decide)

def twoTickersRun : List (Nat × WsMessage) :=
  [(1, .text "ETHUSDT 2000 1"), (2, .text "ETHUSDT 2100 2")]

/-- The second ticker of a pair does not reach the entries the first one filled in. -/
theorem second_ticker_unheeded :
    (twoTickersRun.foldl (receive wordReader) start).latest ["ETHUSDT", "ETHUSDC"] =
        some ⟨⟨2100⟩, ⟨2100⟩, 2⟩ ∧
      (twoTickersRun.foldl (receive wordReader) start).cache.lookup "ETHDAI" =
        some ⟨⟨2000⟩, ⟨2000⟩, 1⟩ ∧
      ¬SyntheticFollows (twoTickersRun.foldl (receive wordReader) start) := by
  have last : (twoTickersRun.foldl (receive wordReader) start).latest ["ETHUSDT", "ETHUSDC"] =
      some ⟨⟨2100⟩, ⟨2100⟩, 2⟩ := by decide +kernel
  have cached : (twoTickersRun.foldl (receive wordReader) start).cache.lookup "ETHDAI" =
      some ⟨⟨2000⟩, ⟨2000⟩, 1⟩ := by decide +kernel
  refine ⟨last, cached, fun follows => ?_⟩
  have followed :=
    follows "ETH" "DAI" (by decide +kernel) (by decide +kernel) ⟨⟨2100⟩, ⟨2100⟩, 2⟩ last
  have same : some (⟨⟨2000⟩, ⟨2000⟩, 1⟩ : TickerData Dollars) = some ⟨⟨2100⟩, ⟨2100⟩, 2⟩ :=
    cached.symm.trans followed
  exact absurd same (by decide)

end Samples

end Fynd
