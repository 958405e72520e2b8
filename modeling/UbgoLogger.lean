import UbgoLogger.Foundation.Text
import UbgoLogger.Foundation.Lines
import UbgoLogger.Foundation.HashChain
import UbgoLogger.Foundation.Machine
import UbgoLogger.Foundation.Monitor
import UbgoLogger.Foundation.History
import UbgoLogger.Foundation.Circular
import UbgoLogger.Core.Clock
import UbgoLogger.Core.Field
import UbgoLogger.Core.Pool
import UbgoLogger.Encode.Float
import UbgoLogger.Encode.Buffer
import UbgoLogger.Encode.Json
import UbgoLogger.Audit.Sink
import UbgoLogger.Audit.Verify
import UbgoLogger.Audit.Agreement
import UbgoLogger.Audit.Faults
import UbgoLogger.Audit.Tamper
import UbgoLogger.Transport.Flow
import UbgoLogger.Transport.Ledger
import UbgoLogger.Transport.Gate
import UbgoLogger.Transport.Ring
import UbgoLogger.Transport.RingFifo
import UbgoLogger.Transport.RingDrain
import UbgoLogger.Transport.RingWakeup
import UbgoLogger.Transport.Channel
import UbgoLogger.Transport.ChannelFlow
import UbgoLogger.Transport.Mpmc
import UbgoLogger.Transport.MpmcInvariant
import UbgoLogger.Transport.MpmcFifo
import UbgoLogger.Transport.Disruptor
import UbgoLogger.Transport.DisruptorFlow
import UbgoLogger.Transport.DisruptorDrain
import UbgoLogger.Transport.Shutdown
import UbgoLogger.Transport.Handoff
import UbgoLogger.Transport.Lifecycle
import UbgoLogger.Core.Context
import UbgoLogger.Sink.FingersCrossed
import UbgoLogger.Sink.Fanout
import UbgoLogger.Sink.EmitOrder
import UbgoLogger.Core.Logger
import UbgoLogger.Core.Span
import UbgoLogger.Sink.SpanScope
import UbgoLogger.Pipeline.Redact
import UbgoLogger.Pipeline.Template
import UbgoLogger.Foundation.Json
import UbgoLogger.Foundation.Utf8
import UbgoLogger.Foundation.JsonOutside
import UbgoLogger.Foundation.JsonParse
import UbgoLogger.Encode.Shortest
import UbgoLogger.Encode.FloatText
import UbgoLogger.Encode.JsonText
import UbgoLogger.Encode.JsonLine
import UbgoLogger.Encode.JsonRoundTrip
import UbgoLogger.Encode.JsonValid
import UbgoLogger.Core.SpanTree
import UbgoLogger.Sink.HttpBatch
import UbgoLogger.Sink.HttpClose
import UbgoLogger.Sink.RotatingFile
import UbgoLogger.Sink.Rotation
import UbgoLogger.Sink.Retention
import UbgoLogger.Core.Metrics
import UbgoLogger.Transport.Metered
import UbgoLogger.Foundation.Slices
import UbgoLogger.Core.Slog
import UbgoLogger.Core.SlogTree
import UbgoLogger.Encode.Logfmt
import UbgoLogger.Encode.LogfmtPairs
import UbgoLogger.Encode.SameMembers
import UbgoLogger.Transport.MpmcSolo
import UbgoLogger.Foundation.InPlace
import UbgoLogger.Pipeline.RedactPaths
import UbgoLogger.Pipeline.TemplatePrint
import UbgoLogger.Pipeline.Denylist
import UbgoLogger.Pipeline.Dedup
import UbgoLogger.Core.Emission
import UbgoLogger.Pipeline.CallSite
import UbgoLogger.Foundation.LostUpdate
import UbgoLogger.Core.SpanRace
import UbgoLogger.Core.ConfigReload
import UbgoLogger.Pipeline.DedupCounts
import UbgoLogger.Pipeline.Sample
import UbgoLogger.Core.FieldValue
import UbgoLogger.Core.SlogInverse
import UbgoLogger.Foundation.JsonPiece
import UbgoLogger.Sink.ActiveSize
import UbgoLogger.Sink.BufferSize
import UbgoLogger.Sink.HttpBody
import UbgoLogger.Sink.NetSink
import UbgoLogger.Sink.NewestFirst
import UbgoLogger.Foundation.JsonFlat
import UbgoLogger.Sink.LokiBody
import UbgoLogger.Contrib.Zap
import UbgoLogger.Sink.ItoaArray
import UbgoLogger.Foundation.Lease
import UbgoLogger.Sink.WriterSink
import UbgoLogger.Sink.WriterLines
import UbgoLogger.Foundation.Layer
import UbgoLogger.Sink.FanoutWriters
import UbgoLogger.Foundation.Lineage
import UbgoLogger.Pipeline.Enrich
import UbgoLogger.Pipeline.SpanTrail
import UbgoLogger.Sink.FileBlocks
import UbgoLogger.Sink.FileSink
import UbgoLogger.Transport.Delivery
import UbgoLogger.Core.MetricsServe
import UbgoLogger.Pipeline.Secrets
