import StremioNzb.Streaming.Calls
import StremioNzb.Streaming.Session
import StremioNzb.Streaming.Layout
import StremioNzb.Streaming.RarMapping
import StremioNzb.Streaming.Pipeline
import StremioNzb.Streaming.Steps
import StremioNzb.Streaming.NoHoles
import StremioNzb.Streaming.Walk
import StremioNzb.Streaming.Sound
import StremioNzb.Streaming.Sharing
import StremioNzb.Streaming.Playable
import StremioNzb.Streaming.Transparent
import StremioNzb.Streaming.ReadAhead
import StremioNzb.Streaming.Window
import StremioNzb.Lib.Except
import StremioNzb.Streaming.Preflight
import StremioNzb.Streaming.Mappable
import StremioNzb.Streaming.Gc
import StremioNzb.Streaming.InUse
import StremioNzb.Streaming.Orphans
import StremioNzb.Lib.Grouping
import StremioNzb.Addon.NzbApi
import StremioNzb.Addon.Candidates
import StremioNzb.Addon.Streams
import StremioNzb.Addon.IpBan
import StremioNzb.Lib.TtlCache
import StremioNzb.Addon.NzbFetch
import StremioNzb.Addon.Canaries
import StremioNzb.Addon.Sanity
import StremioNzb.Addon.Availability
import StremioNzb.Addon.Verdicts
import StremioNzb.Addon.Search
import StremioNzb.Addon.Config
import StremioNzb.Addon.Invalidation
import StremioNzb.Lib.Utf8
import StremioNzb.Lib.ByteStream
import StremioNzb.Addon.BodyProbe
import StremioNzb.Addon.Reads
import StremioNzb.Addon.Dialogue
import StremioNzb.Lib.Text
import StremioNzb.Addon.HttpRange
import StremioNzb.Lib.Asking
import StremioNzb.Streaming.GcPass
import StremioNzb.Streaming.Amid
import StremioNzb.Streaming.Reconcile
import StremioNzb.Streaming.EvictBehind
import StremioNzb.Streaming.Failover
import StremioNzb.Streaming.Plan
import StremioNzb.Streaming.Prefetch
import StremioNzb.Lib.Gaps
import StremioNzb.Lib.Checked
import StremioNzb.Lib.IntervalCount
import StremioNzb.Streaming.FirstGap
import StremioNzb.Streaming.Accounting
import StremioNzb.Streaming.Lookup
import StremioNzb.Streaming.CheckedLayout
import StremioNzb.Streaming.Serving
import StremioNzb.Streaming.Following
import StremioNzb.Streaming.Overflow
import StremioNzb.Lib.StableSort
import StremioNzb.Streaming.Volumes
import StremioNzb.Lib.Collect
import StremioNzb.Addon.Normalize
import StremioNzb.Addon.Tokens
import StremioNzb.Lib.Replace
import StremioNzb.Addon.RedactLog
import StremioNzb.Addon.Playback
import StremioNzb.Addon.Progress
import StremioNzb.Addon.Site
import StremioNzb.Addon.StreamRoute
import StremioNzb.Addon.Provenance
