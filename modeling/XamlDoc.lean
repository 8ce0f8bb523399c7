import XamlDoc.Data.Json.Printer
import XamlDoc.Document.Encoding
import XamlDoc.Html.PlainText
import XamlDoc.Main
import XamlDoc.Proofs.Command.Atomicity
import XamlDoc.Proofs.Config.Resolution
import XamlDoc.Proofs.Dialect.Thickness
import XamlDoc.Proofs.Document.Coding
import XamlDoc.Proofs.Document.Columns
import XamlDoc.Proofs.Footnote.Closure
import XamlDoc.Proofs.Footnote.Labels
import XamlDoc.Proofs.Footnote.Section
import XamlDoc.Proofs.Footnote.Table
import XamlDoc.Proofs.Html.Columns
import XamlDoc.Proofs.Html.Comments
import XamlDoc.Proofs.Html.WellFormed
import XamlDoc.Proofs.Inline.Buffer
import XamlDoc.Proofs.Markup.Cdata
import XamlDoc.Proofs.Markup.ReadBack
import XamlDoc.Proofs.Markup.Serialization
import XamlDoc.Proofs.Markup.Whole
import XamlDoc.Proofs.Render.Agreement
import XamlDoc.Proofs.Render.Balance
import XamlDoc.Proofs.Render.Cancellation
import XamlDoc.Proofs.Render.CodeBlocks
import XamlDoc.Proofs.Render.Declined
import XamlDoc.Proofs.Render.Dialects
import XamlDoc.Proofs.Render.Grids
import XamlDoc.Proofs.Render.Hosts
import XamlDoc.Proofs.Render.Indented
import XamlDoc.Proofs.Render.Isolation
import XamlDoc.Proofs.Render.Lists
import XamlDoc.Proofs.Render.Neighbours
import XamlDoc.Proofs.Render.Nesting
import XamlDoc.Proofs.Render.Numbering
import XamlDoc.Proofs.Render.SpanTexts
import XamlDoc.Proofs.Render.Spans
import XamlDoc.Proofs.Render.TableColumns
import XamlDoc.Proofs.Render.Termination
import XamlDoc.Proofs.Render.Truncation
import XamlDoc.Proofs.Render.Unwinding
import XamlDoc.Proofs.Render.Wording
import XamlDoc.Proofs.Render.Wrappers
import XamlDoc.Render.Cancellation
