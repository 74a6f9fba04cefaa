import MessageCatalog.Plural.Rule
import MessageCatalog.Charset.Encoding
import MessageCatalog.Binary.Cursor
import MessageCatalog.Header.Fields
import MessageCatalog.Header.MediaType
import MessageCatalog.Problem
import MessageCatalog.Messages
import MessageCatalog.Image.Draft
import MessageCatalog.Image.Contents
import MessageCatalog.Text.Placeholder
import MessageCatalog.Locale.Search
import MessageCatalog.Locale.Environment
import MessageCatalog.Catalog.Cache
import MessageCatalog.Template.Save
import MessageCatalog.Proofs.Outcome
import MessageCatalog.Proofs.Table
import MessageCatalog.Proofs.Plural.Grammar
import MessageCatalog.Proofs.Plural.Soundness
import MessageCatalog.Proofs.Plural.Reading
import MessageCatalog.Proofs.Plural.Acceptance
import MessageCatalog.Proofs.Plural.Staging
import MessageCatalog.Proofs.Plural.Written
import MessageCatalog.Proofs.Plural.Rendering
import MessageCatalog.Proofs.Plural.Height
import MessageCatalog.Proofs.Plural.Rereading
import MessageCatalog.Proofs.Charset.Utf8
import MessageCatalog.Proofs.Charset.Cyrillic
import MessageCatalog.Proofs.Image.Addressed
import MessageCatalog.Proofs.Image.Acceptance
import MessageCatalog.Proofs.Image.Framing
import MessageCatalog.Proofs.Image.RoundTrip
import MessageCatalog.Proofs.Catalog.Lookup
import MessageCatalog.Proofs.Catalog.CacheRuns
import MessageCatalog.Proofs.Locale.Fallbacks
import MessageCatalog.Proofs.Text.Trimming
import MessageCatalog.Proofs.Template.Notes
import MessageCatalog.Proofs.Template.StoreRuns
import MessageCatalog.Proofs.Template.Blocks
import MessageCatalog.Proofs.Template.Wrapping
import MessageCatalog.Proofs.Template.RoundTrip
import MessageCatalog.Proofs.Image.ByteOrders
import MessageCatalog.Proofs.Catalog.Sources
import MessageCatalog.Proofs.Catalog.Strategies
import MessageCatalog.Proofs.Catalog.Answers
import MessageCatalog.Proofs.Image.Shape
import MessageCatalog.Proofs.Catalog.Failures
import MessageCatalog.Proofs.Catalog.Exchanges
import MessageCatalog.Proofs.Catalog.Sharing
import MessageCatalog.Proofs.Catalog.Switching
import MessageCatalog.Proofs.Catalog.Extraction
import MessageCatalog.Proofs.Catalog.FormIndex
import MessageCatalog.Proofs.Image.Appending
import MessageCatalog.Proofs.Template.Columns
import MessageCatalog.Proofs.Template.StrayLines
import MessageCatalog.Proofs.Plural.OneCall
import MessageCatalog.Proofs.Plural.ActiveCalls
import MessageCatalog.Proofs.Plural.SpentLevels
import MessageCatalog.Proofs.Plural.Calls
import MessageCatalog.Proofs.Plural.Boundaries
import MessageCatalog.Proofs.Plural.Faults
import MessageCatalog.Proofs.Plural.Terminators
import MessageCatalog.Proofs.Text.Filling
import MessageCatalog.Proofs.Template.Saving
import MessageCatalog.Proofs.Template.HeadingFields
import MessageCatalog.Proofs.Header.Rewriting
import MessageCatalog.Proofs.Header.QuotedParameters
import MessageCatalog.Proofs.Locale.Descent
import MessageCatalog.Proofs.Locale.Precedence
import MessageCatalog.Proofs.Plural.Exactness
import MessageCatalog.Proofs.Binary.CursorRuns
import MessageCatalog.Proofs.Image.WrittenLayout
import MessageCatalog.Proofs.Files.Below
import MessageCatalog.Proofs.Locale.Confinement
