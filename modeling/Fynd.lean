import Fynd.Graph.ExpandPath
import Fynd.BellmanFord.Execution
import Fynd.BellmanFord.Chains
import Fynd.BellmanFord.SubgraphExact
import Fynd.Feed.OverlayLocks
import Fynd.Feed.OwnBooks
import Fynd.Feed.BatchedSnapshot
import Fynd.Derived.Convergence
import Fynd.Worker.GraphContents
import Fynd.Worker.ReadinessLoop
import Fynd.Exclusive.UserOutput
import Fynd.Rpc.TokenPages
import Fynd.PriceGuard.BinanceWs
import Fynd.Nexus.FeedRunner
import Fynd.Router.BestFirst
import Fynd.Router.FanOut
import Fynd.Split.FlatOrder
import Fynd.Split.BuiltRouteValid
import Fynd.Split.SinglePathFloor
import Fynd.Worker.DueRebuilds
import Fynd.Encoding.FeeFetcher
import Fynd.Encoding.Fees
import Fynd.Worker.ProcessedQuote
import Fynd.Simulation.Revert
