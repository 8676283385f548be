import OxideHttp.Lib.Transition
import OxideHttp.Lib.Doorbell
import OxideHttp.Lib.Pipe
import OxideHttp.Lib.Memory
import OxideHttp.Lib.Pieces
import OxideHttp.Lib.IpText
import OxideHttp.Lib.Guard
import OxideHttp.Lib.Strip
import OxideHttp.Lib.JsonText
import OxideHttp.Lib.Double
import OxideHttp.Lib.Folding
import OxideHttp.Lib.PercentCoding
import OxideHttp.Lib.Counters
import OxideHttp.Lib.Shortest
import OxideHttp.Lib.Exposition
import OxideHttp.Lib.Watch
import OxideHttp.Overload
import OxideHttp.Overload.Bounds
import OxideHttp.Handle
import OxideHttp.Handle.Readiness
import OxideHttp.Bridge
import OxideHttp.Bridge.Delivery
import OxideHttp.Bridge.Ids
import OxideHttp.Proxy
import OxideHttp.Proxy.Grammar
import OxideHttp.Proxy.Stream
import OxideHttp.Http
import OxideHttp.Compress
import OxideHttp.Body
import OxideHttp.Body.Pump
import OxideHttp.Body.Reading
import OxideHttp.Multipart
import OxideHttp.Multipart.Reading
import OxideHttp.Multipart.Limits
import OxideHttp.Multipart.Authentic
import OxideHttp.Multipart.Parts
import OxideHttp.Multipart.Sequence
import OxideHttp.Schema
import OxideHttp.Cache
import OxideHttp.Cache.Refinement
import OxideHttp.Dispatch
import OxideHttp.Dispatch.CacheHits
import OxideHttp.Dispatch.CacheReplay
import OxideHttp.Dispatch.Purge
import OxideHttp.RequestBytes
import OxideHttp.Context
import OxideHttp.Pipeline
import OxideHttp.Pipeline.Answered
import OxideHttp.Pipeline.Errors
import OxideHttp.Pipeline.Timeout
import OxideHttp.Pipeline.Terminal
import OxideHttp.Pipeline.Hooks
import OxideHttp.Pipeline.HooksRun
import OxideHttp.Pipeline.Trace
import OxideHttp.Pipeline.Bare
import OxideHttp.Pipeline.TraceRun
import OxideHttp.Pipeline.Observers
import OxideHttp.Pipeline.Gate
import OxideHttp.Pipeline.Validation
import OxideHttp.Routing
import OxideHttp.Routing.Matching
import OxideHttp.Routing.Labels
import OxideHttp.Routing.Groups
import OxideHttp.Routing.Join
import OxideHttp.Routing.Retry
import OxideHttp.Routing.Segments
import OxideHttp.Routing.Methods
import OxideHttp.Routing.ReqPath
import OxideHttp.Routing.Mounts
import OxideHttp.Reply.Framing
import OxideHttp.Cors.Exits
import OxideHttp.Body.Draining
import OxideHttp.Context.Stripping
import OxideHttp.Context.Cookies
import OxideHttp.Lifecycle
import OxideHttp.Lifecycle.Signals
import OxideHttp.Shutdown
import OxideHttp.AccessLog
import OxideHttp.ReadinessCheck
import OxideHttp.Idle
import OxideHttp.ClientIp
import OxideHttp.Units
import OxideHttp.Limits
import OxideHttp.AccessLog.Writer
import OxideHttp.Multipart.FormData
import OxideHttp.Context.Query
import OxideHttp.Metrics
import OxideHttp.Metrics.Scrape
import OxideHttp.Metrics.Encode
import OxideHttp.Connections
