import K8sDqlite.Key
import K8sDqlite.Table
import K8sDqlite.Query
import K8sDqlite.Pagination
import K8sDqlite.Store
import K8sDqlite.Write
import K8sDqlite.Compact
import K8sDqlite.KeyRows
import K8sDqlite.System
import K8sDqlite.Invariant
import K8sDqlite.Refinement
import K8sDqlite.Reads
import K8sDqlite.CompactSpec
import K8sDqlite.Watermark
import K8sDqlite.Gap
import K8sDqlite.Compaction
import K8sDqlite.Snapshot
import K8sDqlite.Events
import K8sDqlite.Placeholders
import K8sDqlite.Retry
import K8sDqlite.Connection
