import Letterpress.Body.Element
import Letterpress.Body.Paragraph
import Letterpress.Body.Reading
import Letterpress.Body.Run
import Letterpress.Body.Section
import Letterpress.Body.Table
import Letterpress.Body.Writing
import Letterpress.Document
import Letterpress.Engine
import Letterpress.Failure
import Letterpress.File
import Letterpress.Filling
import Letterpress.Json
import Letterpress.Json.Reader
import Letterpress.KeyMap
import Letterpress.Markup.Attribute
import Letterpress.Markup.Content
import Letterpress.Markup.Escape
import Letterpress.Markup.Event
import Letterpress.Markup.Fault
import Letterpress.Markup.Piece
import Letterpress.Markup.Reference
import Letterpress.Measure
import Letterpress.Number.Binary
import Letterpress.Number.Decimal
import Letterpress.Number.Shortest
import Letterpress.Package
import Letterpress.Package.ContentTypes
import Letterpress.Package.Ids
import Letterpress.Package.Relationships
import Letterpress.Part
import Letterpress.Render
import Letterpress.Render.Fill
import Letterpress.Render.Paragraph
import Letterpress.Render.Scope
import Letterpress.Render.Table
import Letterpress.Settings
import Letterpress.Template
import Letterpress.Template.Check
import Letterpress.Template.Expand
import Letterpress.Template.Failure
import Letterpress.Template.Glyph
import Letterpress.Template.Lexer
import Letterpress.Template.Node
import Letterpress.Template.Parser
import Letterpress.Template.Tag
import Letterpress.Text.Blank
import Letterpress.Text.Hidden
import Letterpress.Text.Hidden.Table
import Letterpress.Text.Lowercase
import Letterpress.Text.Lowercase.Table
import Letterpress.Text.Utf8
import Letterpress.Toml
import Letterpress.Toml.Reader
import Letterpress.Proofs.Render.Fill
import Letterpress.Proofs.Body.Elements
import Letterpress.Proofs.Body.RoundTrip
import Letterpress.Proofs.Render.Cuts
import Letterpress.Proofs.Render.Overrides
import Letterpress.Proofs.Template.Spans
import Letterpress.Proofs.Body.References
import Letterpress.Proofs.Document.FreshIds
import Letterpress.Proofs.Template.Resolution
import Letterpress.Proofs.Body.Setups
import Letterpress.Proofs.Render.LoopTags
import Letterpress.Proofs.Render.Frames
import Letterpress.Proofs.Body.FixedPoint
import Letterpress.Proofs.Body.Forms
import Letterpress.Proofs.Body.EmptyTags
import Letterpress.Proofs.Package.Archives
import Letterpress.Proofs.Body.Truncation
import Letterpress.Proofs.Body.Unknown
import Letterpress.Proofs.Engine.Cache
import Letterpress.Proofs.Render.Lines
import Letterpress.Proofs.Render.Names
import Letterpress.Proofs.Render.Isolation
import Letterpress.Proofs.Render.Missing
import Letterpress.Proofs.Render.Unrolling
import Letterpress.Proofs.Render.Values
import Letterpress.Proofs.Document.Links
import Letterpress.Proofs.Document.Building
import Letterpress.Proofs.Render.Bookmarks
import Letterpress.Proofs.Document.Bookmarks
import Letterpress.Proofs.Number.Binary
import Letterpress.Proofs.Template.Tokens
import Letterpress.Proofs.Template.Pairing
import Letterpress.Proofs.Template.Checking
import Letterpress.Proofs.Template.Calls
import Letterpress.Proofs.Render.Repeats
import Letterpress.Proofs.Engine.Inheritance
import Letterpress.Proofs.Render.Paragraphs
import Letterpress.Proofs.Body.Refusals
import Letterpress.Proofs.Document.Failures
import Letterpress.Proofs.Document.Linked
import Letterpress.Proofs.Package.Relationships
import Letterpress.Proofs.Package.Types
import Letterpress.Proofs.Render.Removal
import Letterpress.Proofs.Markup.Escaping
import Letterpress.Proofs.Markup.Extents
import Letterpress.Proofs.Body.Wrappers
