import TemplateFormat.Layout.Document
import TemplateFormat.Settings.Find
import TemplateFormat.Cache
import TemplateFormat.Journal
import TemplateFormat.Editor.Position
import TemplateFormat.Editor.Uri
import TemplateFormat.Editor.Json
import TemplateFormat.Editor.Params
import TemplateFormat.Editor.Message
import TemplateFormat.Command.Flags
import TemplateFormat.Command.Selection
import TemplateFormat.Command.Report
import TemplateFormat.Command.Run
import TemplateFormat.Command.Footprint
import TemplateFormat.Main
import TemplateFormat.Proofs.Blanks
import TemplateFormat.Proofs.Respacing
import TemplateFormat.Proofs.Content
import TemplateFormat.Proofs.Expanded
import TemplateFormat.Proofs.LineEnds
import TemplateFormat.Proofs.SecondPass
import TemplateFormat.Proofs.TagSurvival
import TemplateFormat.Proofs.Spans
import TemplateFormat.Proofs.Balance
import TemplateFormat.Proofs.Lookups
import TemplateFormat.Proofs.Redetection
import TemplateFormat.Proofs.LineShapes
import TemplateFormat.Proofs.OpenDocuments
import TemplateFormat.Proofs.Positions
import TemplateFormat.Proofs.Edges
import TemplateFormat.Proofs.Edits
import TemplateFormat.Proofs.CacheFile
import TemplateFormat.Proofs.Disks
import TemplateFormat.Proofs.CacheHistory
import TemplateFormat.Proofs.Shapes
import TemplateFormat.Proofs.LastWrite
import TemplateFormat.Proofs.Tasks
import TemplateFormat.Proofs.Orders
import TemplateFormat.Proofs.Modes
import TemplateFormat.Proofs.NormalForm
import TemplateFormat.Proofs.StringLiterals
import TemplateFormat.Proofs.SpreadElements
import TemplateFormat.Proofs.WordBreaks
import TemplateFormat.Proofs.Keywords
import TemplateFormat.Proofs.IndexContents
import TemplateFormat.Proofs.TextBraces
import TemplateFormat.Proofs.TrailingText
import TemplateFormat.Proofs.RepeatedLookups
import TemplateFormat.Proofs.RoundTrips
import TemplateFormat.Proofs.Leads
import TemplateFormat.Proofs.Ancestors
import TemplateFormat.Proofs.Detection
import TemplateFormat.Proofs.NearestSettings
import TemplateFormat.Proofs.TagQuotes
import TemplateFormat.Proofs.Extensions
import TemplateFormat.Proofs.CleanPaths
import TemplateFormat.Proofs.Leaves
import TemplateFormat.Proofs.Routes
import TemplateFormat.Proofs.Walks
import TemplateFormat.Proofs.Selections
import TemplateFormat.Proofs.Spellings
