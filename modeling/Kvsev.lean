import Kvsev.Server.Freshness
import Kvsev.Server.MacInvariant
import Kvsev.Concurrent.Pairing
import Kvsev.Concurrent.Publish
import Kvsev.Merkle.Binding
import Kvsev.Merkle.Counts
import Kvsev.Assoc.Refines
import Kvsev.Holders.Limit
import Kvsev.Holders.Cas
import Kvsev.Holders.Recache
import Kvsev.Connection.Pipelining
import Kvsev.Slabs.Ownership
import Kvsev.Lru.Exact
import Kvsev.Holders.Flush
import Kvsev.Connection.Rejected
import Kvsev.Server.Rescue
import Kvsev.Merkle.ListCalls
import Kvsev.Merkle.NestedCalls
import Kvsev.Merkle.Existence
import Kvsev.Client.Requests
import Kvsev.Client.Pool
import Kvsev.Helper.Attest
import Kvsev.Connection.Auth
import Kvsev.Server.Authfile
import Kvsev.Meta.Delete
import Kvsev.Meta.Ttl
import Kvsev.Meta.Errors
import Kvsev.Meta.MsetExact
import Kvsev.Connection.Multiget
import Kvsev.Lru.CrawlerLocks
import Kvsev.Server.Sizes
import Kvsev.Stats.Prefixes
