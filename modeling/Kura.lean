import Kura.Base.Transition
import Kura.Base.Table
import Kura.Base.Json
import Kura.Base.PrefixCode
import Kura.Base.JsonText
import Kura.Base.Chunks
import Kura.Server.Exec
import Kura.Server.Api
import Kura.Server.Accepted
import Kura.Server.Queue
import Kura.Server.Coordinator
import Kura.Server.QueueSpec
import Kura.Server.Rows
import Kura.Server.Lifecycle
import Kura.Server.Protocol
import Kura.Server.Reap
import Kura.Server.Availability
import Kura.Server.Outputs
import Kura.Server.Origin
import Kura.Server.Dedupe
import Kura.Server.Worker
import Kura.Server.Delivery
import Kura.Server.HotFolder
import Kura.Server.Inputs
import Kura.Server.Wire
import Kura.Server.RoundTrip
import Kura.Engine.Number
import Kura.Engine.Cli
import Kura.Engine.AllowList
import Kura.Engine.Content
import Kura.Engine.InlineImage
import Kura.Engine.ContentFix
import Kura.Engine.ImageRepair
import Kura.Engine.TextRepair
import Kura.Engine.FixTwice
import Kura.Engine.PlainPdf
import Kura.Base.Search
import Kura.Engine.Sign
import Kura.Engine.Signed
import Kura.Engine.Jobs
import Kura.Engine.Plan
import Kura.Engine.PlanRun
import Kura.Engine.Verdict
import Kura.Engine.Batch
import Kura.Engine.BatchPaths
import Kura.Base.JsonGrammar
import Kura.Engine.Report
import Kura.Engine.ReportFormat
import Kura.Engine.Watch
import Kura.Engine.WatchRun
import Kura.Engine.ToUnicode
import Kura.Engine.FontWidths
import Kura.Engine.ToUnicodeAgree
import Kura.Engine.WidthRepair
import Kura.Engine.QuickCheck
import Kura.Engine.Rounding
import Kura.Engine.Strtod
import Kura.Base.Writes
import Kura.Engine.JsonReader
import Kura.Engine.JsonTrip
import Kura.Engine.PlanResults
import Kura.Engine.Substitute
import Kura.Engine.Xmp
import Kura.Engine.XmpText
import Kura.Engine.XmpTitle
import Kura.Server.Placing
import Kura.Server.Redelivery
import Kura.Base.Assign
import Kura.Base.Buffer
import Kura.Base.Envelope
import Kura.Base.Nesting
import Kura.Engine.Brackets
import Kura.Engine.Distance
import Kura.Engine.DistanceExact
import Kura.Engine.NearestSeed
import Kura.Engine.OnlyWhere
import Kura.Engine.StepHits
import Kura.Engine.Operands
import Kura.Engine.RelationSymmetry
import Kura.Base.CountLoop
import Kura.Base.Fresh
import Kura.Base.Integers
import Kura.Base.Reading
import Kura.Base.Rename
import Kura.Engine.CMap
import Kura.Engine.CMapEnds
import Kura.Engine.Calculator
import Kura.Engine.ExactCalc
import Kura.Engine.FileBounds
import Kura.Engine.LimitsKept
import Kura.Engine.MergeInks
import Kura.Engine.PageTree
import Kura.Engine.Rebalance
import Kura.Engine.SaveRestore
import Kura.Engine.TableBounds
import Kura.Base.AtEach
import Kura.Base.Bits
import Kura.Base.Chains
import Kura.Base.Phrases
import Kura.Engine.CodePieces
import Kura.Engine.CodesAgree
import Kura.Engine.EmbeddedFiles
import Kura.Engine.GlyphClean
import Kura.Engine.GlyphSteps
import Kura.Engine.LangTags
import Kura.Engine.LongStreams
import Kura.Engine.MeshKept
import Kura.Engine.Outline
import Kura.Engine.OutlineRun
import Kura.Engine.PageBoxes
import Kura.Engine.RecordRanges
import Kura.Engine.RoleMap
import Kura.Engine.SampledFunction
import Kura.Engine.StackMachine
import Kura.Engine.TagWrap
import Kura.Engine.TaggedContent
import Kura.Engine.TextKept
import Kura.Base.Rounds
import Kura.Base.SortedMap
import Kura.Engine.BookmarkLinks
import Kura.Engine.Jpx
import Kura.Engine.NoteIds
import Kura.Engine.TlmRemoved
import Kura.Engine.AnnotationsFixed
import Kura.Engine.Barcode
import Kura.Engine.BoxDownsample
import Kura.Engine.CidSet
import Kura.Engine.CidWidths
import Kura.Engine.CompletedFonts
import Kura.Engine.DecimalText
import Kura.Engine.ImageMeaning
import Kura.Engine.JpegDims
import Kura.Engine.LzwCodes
import Kura.Engine.ReportTexts
import Kura.Engine.ScalarValues
import Kura.Engine.TransCover
import Kura.Server.BuildArgs
import Kura.Server.RequestPath
import Kura.Engine.SampledInterpolation
import Kura.Base.DepthFirst
import Kura.Engine.TransparencySearch
import Kura.Server.Waiting
import Kura.Server.Retention
import Kura.Server.Admission
import Kura.Engine.CalcProgram
