import SafeMarkup.Markup.Node.Edit
import SafeMarkup.Markup.Node.Arena
import SafeMarkup.Template.Format
import SafeMarkup.Template.Trace
import SafeMarkup.Configuration.Stock
import SafeMarkup.Configuration.Publication
import SafeMarkup.Marker.Search
import SafeMarkup.Text.Basic
import SafeMarkup.Proofs.NestedInterference
import SafeMarkup.Proofs.MarkerFates
import SafeMarkup.Proofs.Canonical
import SafeMarkup.Proofs.Concatenation
import SafeMarkup.Proofs.Escaping
import SafeMarkup.Proofs.Decoding
import SafeMarkup.Proofs.Freezing
import SafeMarkup.Proofs.Registrations
import SafeMarkup.Proofs.PublishedOnce
import SafeMarkup.Proofs.RawTextSlots
import SafeMarkup.Proofs.Numbering
import SafeMarkup.Proofs.TagGrammar
import SafeMarkup.Proofs.AttributeSpellings
import SafeMarkup.Proofs.RawTextBodies
import SafeMarkup.Proofs.Tiling
import SafeMarkup.Proofs.VoidElements
import SafeMarkup.Proofs.JoinedSegments
import SafeMarkup.Proofs.FormatStrings
import SafeMarkup.Proofs.EscapedReplacement
import SafeMarkup.Proofs.Interning
import SafeMarkup.Proofs.Walks
import SafeMarkup.Proofs.Scanners
