import Fynd.Graph.TokenGraph

/-!
# The search for token paths

A path between two tokens is found by meeting in the middle: walks out of both ends
are grouped in levels by the hops they count and joined where they end on one token.
A path that ends where it starts is searched from that token alone. A step through
the native wrap counts no hop.
-/

namespace Fynd

open Foundation

/-- The bounds of a search: the hops a path may count and the tokens it may pass through. -/
structure GraphQueryFilter where
  minHops : Nat
  maxHops : Nat
  connectorTokens : Option (Finset Address)
  deriving DecidableEq

/-- The bounds an algorithm configured and what the request excludes. -/
structure RouteSearch where
  bounds : GraphQueryFilter
  constraints : ResolvedRouteConstraints
  deriving DecidableEq

/-- Whether a route may pass through a token: an endpoint, or a token the request does not
exclude that is a connector or required. -/
def RouteSearch.allowsToken (search : RouteSearch) (token : Address)
    (endpoints : Address × Address) : Bool :=
  search.constraints.allowsToken token endpoints &&
    (token = endpoints.1 || token = endpoints.2 ||
      (match search.bounds.connectorTokens with
        | none => true
        | some tokens => decide (token ∈ tokens)) ||
      decide (token ∈ search.constraints.requiredTokens))

/-- A route as its tokens, before the pools of its legs are chosen. -/
abbrev TokenPath := List NodeIndex

namespace TopologyGraph

variable {D : Type} [NativeWrap]

section

variable (graph : TopologyGraph D)

omit [NativeWrap] in
/-- Whether the path between two endpoints may pass through a node. -/
def allowsNode (search : RouteSearch)
    (endpoints : NodeIndex × NodeIndex) (node : NodeIndex) : Bool :=
  search.allowsToken (tokenOf graph.graph node)
    (tokenOf graph.graph endpoints.1, tokenOf graph.graph endpoints.2)

section

variable (endpoints : NodeIndex × NodeIndex)

/-- Every extension of a sequence by one step through a pool other than the native wrap. -/
def extendByTrade (search : RouteSearch) (sequence : TokenPath) : List TokenPath :=
  match sequence.getLast? with
  | none => []
  | some last =>
    ((graph.neighbors last).filter fun neighbor =>
      !sequence.contains neighbor && graph.allowsNode search endpoints neighbor &&
        graph.pairHasAllowedTrade last neighbor search.constraints).map
      fun neighbor => sequence ++ [neighbor]

/-- The sequence with the token on the other side of the wrap, if it ends on one side. -/
def maybeExtendByWrap (search : RouteSearch) (sequence : TokenPath) : List TokenPath :=
  match sequence.getLast? with
  | none => []
  | some last =>
    match graph.wrapTwin last with
    | none => []
    | some twin =>
      if sequence.contains twin || !graph.allowsNode search endpoints twin ||
          !graph.pairHasAllowedWrap last twin search.constraints then []
      else [sequence ++ [twin]]

/-- A level with the sequences the wrap adds to it. -/
def withWraps (search : RouteSearch) (level : List TokenPath) : List TokenPath :=
  if graph.wrapEnds.isSome then
    level ++ level.flatMap (graph.maybeExtendByWrap endpoints search)
  else level

end

end

/-- The levels that follow from the sequences whose last step is a trade. -/
def levelsFrom (graph : TopologyGraph D) (endpoints : NodeIndex × NodeIndex)
    (search : RouteSearch) : Nat → List TokenPath → List (List TokenPath)
  | 0, level => [graph.withWraps endpoints search level]
  | hops + 1, level =>
    let complete := graph.withWraps endpoints search level
    complete :: graph.levelsFrom endpoints search hops
      (complete.flatMap (graph.extendByTrade endpoints search))

/-- The sequences that leave a token, one level per hop count. -/
def walkLevels (graph : TopologyGraph D) (start : NodeIndex) (hops : Nat)
    (endpoints : NodeIndex × NodeIndex) (search : RouteSearch) : List (List TokenPath) :=
  graph.levelsFrom endpoints search hops [[start]]

omit [NativeWrap] in
/-- Whether the last step of a sequence is on the wrap pair. -/
def endsOnWrap (graph : TopologyGraph D) (sequence : TokenPath) : Bool :=
  match sequence.reverse with
  | last :: before :: _ => graph.isWrapPair before last
  | _ => false

/-- The tails that end on a token, turned around. -/
def tailsByMidpoint (tails : List TokenPath) (midpoint : NodeIndex) : List TokenPath :=
  (tails.filter fun tail => tail.getLast? = some midpoint).map List.reverse

/-- Whether two halves share a token besides the one they meet in. -/
def collides (midpoint : NodeIndex) (head tail : TokenPath) : Bool :=
  head.any fun token => decide (token ≠ midpoint) && tail.contains token

omit [NativeWrap] in
/-- Joins a head with the tails that meet it. A head that ends on the wrap is skipped: the tails
take the wrap at every level. -/
def joinHead (graph : TopologyGraph D) (tails : List TokenPath) (head : TokenPath) :
    List TokenPath :=
  match head.getLast? with
  | none => []
  | some midpoint =>
    if graph.endsOnWrap head then []
    else
      ((tailsByMidpoint tails midpoint).filter fun tail => !collides midpoint head tail).map
        fun tail => head ++ tail.tail

section

variable (graph : TopologyGraph D)

omit [NativeWrap] in
/-- The paths of one length, from the levels of both sides. -/
def joinLength (headLevels tailLevels : List (List TokenPath)) (length : Nat) : List TokenPath :=
  let headHops := (length + 1) / 2
  match headLevels[headHops]?, tailLevels[length - headHops]? with
  | some heads, some tails => heads.flatMap (graph.joinHead tails)
  | _, _ => []

/-- Every path between two tokens, found by meeting in the middle, one length at a time. -/
def bidirectionalSearch (source target : NodeIndex) (search : RouteSearch) : List TokenPath :=
  let filter := search.bounds
  let headLevels := graph.walkLevels source ((filter.maxHops + 1) / 2) (source, target) search
  let tailLevels := graph.walkLevels target (filter.maxHops / 2) (source, target) search
  let loneWrap :=
    if filter.minHops = 1 && graph.pairHasAllowedWrap source target search.constraints then
      [[source, target]]
    else []
  loneWrap ++ (List.range' filter.minHops (filter.maxHops + 1 - filter.minHops)).flatMap
    (graph.joinLength headLevels tailLevels)

/-- The steps a round trip may take from the end of a sequence, each with the hops it then
counts. -/
def circularSteps (search : RouteSearch) (sequence : TokenPath)
    (nonWrapHops : Nat) (last : NodeIndex) : List (NodeIndex × Nat) :=
  let trades :=
    if nonWrapHops < search.bounds.maxHops then
      ((graph.neighbors last).filter fun neighbor =>
        graph.pairHasAllowedTrade last neighbor search.constraints).map
          fun neighbor => (neighbor, nonWrapHops + 1)
    else []
  let usedWrap : Bool := sequence.length - 1 > nonWrapHops
  let wraps :=
    if usedWrap then []
    else
      match graph.wrapTwin last with
      | none => []
      | some twin =>
        if graph.pairHasAllowedWrap last twin search.constraints then [(twin, nonWrapHops)]
        else []
  trades ++ wraps

/-- The round trips that close a sequence. -/
def closeSequence (target : NodeIndex) (search : RouteSearch)
    (entry : TokenPath × Nat) : List TokenPath :=
  match entry.1.getLast? with
  | none => []
  | some last =>
    ((graph.circularSteps search entry.1 entry.2 last).filter fun step =>
      step.1 = target && search.bounds.minHops ≤ max step.2 1).map
      fun step => entry.1 ++ [step.1]

/-- The sequences that extend a sequence without closing it. -/
def extendSequence (target : NodeIndex) (search : RouteSearch)
    (entry : TokenPath × Nat) : List (TokenPath × Nat) :=
  match entry.1.getLast? with
  | none => []
  | some last =>
    ((graph.circularSteps search entry.1 entry.2 last).filter fun step =>
      step.1 ≠ target && !entry.1.contains step.1 &&
        graph.allowsNode search (target, target) step.1).map
      fun step => (entry.1 ++ [step.1], step.2)

end

/-- Closes and extends the sequences of a frontier, round after round. -/
def circularRounds (graph : TopologyGraph D) (target : NodeIndex) (search : RouteSearch) :
    Nat → List (TokenPath × Nat) → List TokenPath
  | 0, _ => []
  | rounds + 1, frontier =>
    frontier.flatMap (graph.closeSequence target search) ++
      graph.circularRounds target search rounds
        (frontier.flatMap (graph.extendSequence target search))

/-- The paths that begin and end on one token. -/
def circularTokenPaths (graph : TopologyGraph D) (target : NodeIndex) (search : RouteSearch) :
    List TokenPath :=
  let rounds := search.bounds.maxHops + if graph.wrapEnds.isSome then 1 else 0
  graph.circularRounds target search rounds [([target], 0)]

/-- Every token path between two tokens within the bounds that visits the required tokens. -/
def pathsBetweenIx (graph : TopologyGraph D) (source target : NodeIndex) (search : RouteSearch) :
    List TokenPath :=
  let filter := search.bounds
  if filter.minHops = 0 || filter.maxHops < filter.minHops then []
  else
    let tokenPaths :=
      if source = target then graph.circularTokenPaths target search
      else graph.bidirectionalSearch source target search
    tokenPaths.filter fun path =>
      search.constraints.visitsAllRequiredTokens (path.map (tokenOf graph.graph))

end TopologyGraph

end Fynd
