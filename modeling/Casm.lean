import Casm.Lib.Bytes
import Casm.Lib.Fault
import Casm.Lib.Machine
import Casm.Lib.MultiIndex
import Casm.Lib.IndexScan
import Casm.Lib.SortedEngine
import Casm.Lib.Slice
import Casm.Lib.Datastore
import Casm.Lib.Path
import Casm.Lib.Registry
import Casm.Routing.Schema
import Casm.Routing.Table
import Casm.Routing.ExpiringMap
import Casm.Routing.Indexes
import Casm.Routing.Snapshot
import Casm.Routing.Concurrent
import Casm.Routing.Replay
import Casm.Pulse.Validator
import Casm.Pex.Record
import Casm.Pex.Merge
import Casm.Pex.Store
import Casm.Pex.Round
import Casm.Pex.RoundStore
import Casm.Pex.Rounds
import Casm.Pex.Freshness
import Casm.Pex.Hops
import Casm.Pex.Namespaces
import Casm.Pex.Exchange
import Casm.Pex.Calls
import Casm.Pex.Discovery
import Casm.Pex.Authentic
import Casm.Cluster.Query
import Casm.Cluster.Bounds
import Casm.Cluster.Remote
import Casm.Cluster.Handler
import Casm.Cluster.Router
import Casm.Cluster.Threads
import Casm.Pex.Dedupe
import Casm.Pex.Selection
import Casm.Lib.PathText
import Casm.Proto.Match
import Casm.Proto.Matcher
import Casm.Lib.Ip
import Casm.Boot.Crawl
import Casm.Boot.Cache
import Casm.Boot.Subscriptions
import Casm.Boot.Serve
import Casm.Boot.CrawlAddr
import Casm.Boot.Ports
import Casm.Lib.Memo
import Casm.Socket.Sealer
import Casm.Routing.Optional
import Casm.Cluster.Matchers
import Casm.Cluster.Range
import Casm.Cluster.Constraints
import Casm.Cluster.Reuse
import Casm.Cluster.Exhaustion
import Casm.Boot.Limits
import Casm.Lib.Hex
import Casm.Routing.Text
import Casm.Pulse.Heartbeat
import Casm.Cluster.Records
import Casm.Boot.Distance
import Casm.Proto.Split
import Casm.Proto.Upgrade
import Casm.Lib.Utf8
import Casm.Boot.Gradual
import Casm.Lib.LastWrite
import Casm.Cluster.Membership
import Casm.Lib.Refinement
import Casm.Boot.Delivery
import Casm.Boot.Socket
import Casm.Boot.Swarm
import Casm.Lib.Steps
import Casm.Pex.Network
import Casm.Lib.Epidemic
import Casm.Pex.Spread
import Casm.Cluster.Silence
import Casm.Cluster.Detector
import Casm.Cluster.Service
import Casm.Proto.Vat
import Casm.Proto.Calls
import Casm.Boot.Crawler
import Casm.Boot.Widening
import Casm.Pex.Lifetime
import Casm.Pex.Find
import Casm.Socket.Pool
