import MemoryPolicy.StableSort
import MemoryPolicy.FirstSeen
import MemoryPolicy.Sieve.Basic
import MemoryPolicy.Sieve.Single
import MemoryPolicy.Sieve.Exchange
import MemoryPolicy.Sieve.Guard
import MemoryPolicy.Sieve.Top
import MemoryPolicy.Sieve.Strict
import MemoryPolicy.Sieve.Shrink
import MemoryPolicy.Sieve.Merge
import MemoryPolicy.Sieve.Prune
import MemoryPolicy.Sieve.Resort
import MemoryPolicy.Sieve.Rewrite
import MemoryPolicy.Transition
import MemoryPolicy.Sieve.Collect
import MemoryPolicy.Sieve.Shards
import MemoryPolicy.CheckThenAct
import MemoryPolicy.Buffered
import MemoryPolicy.TreeMap
import MemoryPolicy.Text
import MemoryPolicy.Text.Case
import MemoryPolicy.Bytes
import MemoryPolicy.Decimal
import MemoryPolicy.Positional
import MemoryPolicy.Words
import MemoryPolicy.Balance
import MemoryPolicy.Scope
import MemoryPolicy.Scope.Matching
import MemoryPolicy.Scope.Containment
import MemoryPolicy.Scope.Normal
import MemoryPolicy.Metadata.Frame
import MemoryPolicy.Metadata.Codec
import MemoryPolicy.Metadata.Canonical
import MemoryPolicy.Metadata.Stamp
import MemoryPolicy.Retention.Model
import MemoryPolicy.Retention.Refinement
import MemoryPolicy.Retention.Tracking
import MemoryPolicy.Retention.Agreement
import MemoryPolicy.Retention.Binary
import MemoryPolicy.Retention.Isolation
import MemoryPolicy.Retention.Disturbance
import MemoryPolicy.Retention.Supersession
import MemoryPolicy.Retention.Top
import MemoryPolicy.Retention.Enumeration
import MemoryPolicy.Retention.Thresholds
import MemoryPolicy.Retention.Counts
import MemoryPolicy.Retention.Salience
import MemoryPolicy.Retention.Rational
import MemoryPolicy.Retention.Merge
import MemoryPolicy.Retention.Laws
import MemoryPolicy.Retention.Sweep
import MemoryPolicy.Retention.Clock
import MemoryPolicy.Retention.Shards
import MemoryPolicy.Retention.Visible
import MemoryPolicy.Retention.Builders
import MemoryPolicy.Dedup.Key
import MemoryPolicy.Dedup.Set
import MemoryPolicy.Dedup.Gate
import MemoryPolicy.Dedup.Hex
import MemoryPolicy.Dedup.Codec
import MemoryPolicy.Dedup.Snapshot
import MemoryPolicy.Dedup.Restart
import MemoryPolicy.Reconcile.Resolver
import MemoryPolicy.Reconcile.Consolidation
import MemoryPolicy.Reconcile.Restart
import MemoryPolicy.InMemory.Model
import MemoryPolicy.InMemory.Exact
import MemoryPolicy.InMemory.Keys
import MemoryPolicy.InMemory.Retrieval
import MemoryPolicy.InMemory.Log
import MemoryPolicy.InMemory.Growth
import MemoryPolicy.InMemory.Case
import MemoryPolicy.Dedup.SimHash
import MemoryPolicy.Dedup.Majority
import MemoryPolicy.Dedup.Perturbation
import MemoryPolicy.Dedup.Joined
import MemoryPolicy.Fusion.Model
import MemoryPolicy.Fusion.Votes
import MemoryPolicy.Fusion.Exact
import MemoryPolicy.Fusion.Repeats
import MemoryPolicy.Fusion.Unanimity
import MemoryPolicy.Fusion.Promotion
import MemoryPolicy.Archive
import MemoryPolicy.Store
import MemoryPolicy.Store.Writers
import MemoryPolicy.Conformance
