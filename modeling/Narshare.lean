import Narshare.Lib.OrdMap
import Narshare.Lib.System
import Narshare.Lib.Wrap
import Narshare.Lib.Lru
import Narshare.Lib.Roster
import Narshare.Lib.SeqRun
import Narshare.Lib.Absorb
import Narshare.Lib.Paging
import Narshare.Lib.Front
import Narshare.Lib.Chunks
import Narshare.Lib.Slice
import Narshare.Lib.Cover
import Narshare.Lib.Stock
import Narshare.Lib.Encode
import Narshare.Lib.Slab
import Narshare.Lib.Clamp
import Narshare.Lib.Wheel
import Narshare.Lib.Gossip
import Narshare.Lib.Ledger
import Narshare.Proto
import Narshare.Text
import Narshare.Words
import Narshare.Base32
import Narshare.Store.Merge
import Narshare.Store.Rocks
import Narshare.Store.Page
import Narshare.Store.Batch
import Narshare.Store.Replica
import Narshare.Store.FactTable
import Narshare.Store.Facts
import Narshare.Store.Machine
import Narshare.Store.Lookup
import Narshare.Store.Join
import Narshare.Store.Keys
import Narshare.Store.Retire
import Narshare.Store.Raw
import Narshare.Store.Mirror
import Narshare.Store.Catalog
import Narshare.Store.Postgres
import Narshare.Store.Upsert
import Narshare.Store.PgPage
import Narshare.Store.Refine
import Narshare.Store.Backends
import Narshare.Nar.Framing
import Narshare.Nar.Build
import Narshare.Nar.Serve
import Narshare.Nar.Request
import Narshare.Nar.Emit
import Narshare.Nar.Encoded
import Narshare.Nar.Manifests
import Narshare.Nar.Cache
import Narshare.Nar.Manifest
import Narshare.Nar.Wrapped
import Narshare.Transfer.Buffer
import Narshare.Transfer.Contents
import Narshare.Transfer.Retention
import Narshare.Transfer.Greedy
import Narshare.Transfer.Sums
import Narshare.Transfer.Plan
import Narshare.Transfer.Emitter
import Narshare.Transfer.Loop
import Narshare.Transfer.Account
import Narshare.Transfer.Deliver
import Narshare.Transfer.Tells
import Narshare.Transfer.Honest
import Narshare.Transfer.Complete
import Narshare.Index.NixDb
import Narshare.Index.NarIndex
import Narshare.Index.Fingerprint
import Narshare.Index.Narinfo
import Narshare.Index.Respond
import Narshare.Index.Apply
import Narshare.Index.Suffix
import Narshare.Index.Export
import Narshare.Index.Differ
import Narshare.Index.Own
import Narshare.Index.Additions
import Narshare.Index.Log
import Narshare.Mesh
import Narshare.Index.Interleave
import Narshare.Index.Cut
import Narshare.Index.Remint
import Narshare.Index.Ack
import Narshare.Index.Rounds
import Narshare.Index.Response
import Narshare.Sync.Catchup
import Narshare.Sync.Window
import Narshare.Sync.Lease
import Narshare.Sync.Handoff
import Narshare.Sync.Coverage
import Narshare.Sync.Dump
import Narshare.Sync.Drift
import Narshare.Sync.Pages
import Narshare.Sync.Fetch
import Narshare.Sync.Reconcile
import Narshare.Proxy.Answer
import Narshare.Io.Window
import Narshare.Io.Segment
import Narshare.Io.Ring
import Narshare.Io.Served
import Narshare.Steer.Governor
import Narshare.Steer.Memory
import Narshare.Nar.Governed
import Narshare.Steer.Limits
import Narshare.Steer.Breaker
import Narshare.Steer.Pool
import Narshare.Converge
import Narshare.Sync.Pull
import Narshare.Sync.Hints
