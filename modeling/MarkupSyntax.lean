import MarkupSyntax.Grammar.Rules
import MarkupSyntax.Main
import MarkupSyntax.Proofs.Token.Lexeme
import MarkupSyntax.Proofs.Token.Stream
import MarkupSyntax.Proofs.Token.Reading
import MarkupSyntax.Proofs.Token.Seam
import MarkupSyntax.Proofs.Grammar.Production
import MarkupSyntax.Proofs.Tree.Outline
import MarkupSyntax.Proofs.Grammar.Precedence
import MarkupSyntax.Proofs.Parse.Trace
import MarkupSyntax.Proofs.Parse.Yields
import MarkupSyntax.Proofs.Parse.Grows
import MarkupSyntax.Proofs.Parse.Steps
import MarkupSyntax.Proofs.Parse.Markers
import MarkupSyntax.Proofs.Parse.Recovering
import MarkupSyntax.Proofs.Grammar.Basic
import MarkupSyntax.Proofs.Grammar.Control
import MarkupSyntax.Proofs.Grammar.Operators
import MarkupSyntax.Proofs.Grammar.Properties
import MarkupSyntax.Proofs.Grammar.Elements
import MarkupSyntax.Proofs.Grammar.Content
import MarkupSyntax.Proofs.Grammar.Element
import MarkupSyntax.Proofs.Grammar.Definitions
import MarkupSyntax.Proofs.Grammar.Descent
import MarkupSyntax.Proofs.Event.Growth
import MarkupSyntax.Proofs.Tree.Layout
import MarkupSyntax.Proofs.Tree.Places
import MarkupSyntax.Proofs.Document.Parse
import MarkupSyntax.Proofs.Diagnostic.Merge
import MarkupSyntax.Proofs.Diagnostic.Placed
import MarkupSyntax.Proofs.Tree.Lexemes
import MarkupSyntax.Proofs.Document.Source
import MarkupSyntax.Proofs.Document.Clean
import MarkupSyntax.Proofs.Document.Precedence
import MarkupSyntax.Proofs.Document.Memo
import MarkupSyntax.Proofs.Token.Scan
import MarkupSyntax.Proofs.Token.Spelling
import MarkupSyntax.Proofs.Parse.Draws
import MarkupSyntax.Proofs.Tree.Bare
import MarkupSyntax.Proofs.Tree.Lookup
import MarkupSyntax.Proofs.Grammar.Term
import MarkupSyntax.Proofs.Grammar.Roundtrip
import MarkupSyntax.Proofs.Document.Roundtrip
import MarkupSyntax.Proofs.Document.Escaped
import MarkupSyntax.Proofs.Token.Lookahead
import MarkupSyntax.Proofs.Token.Rewind
import MarkupSyntax.Proofs.Document.Mirror
import MarkupSyntax.Proofs.Token.Spread
import MarkupSyntax.Proofs.Token.Relex
import MarkupSyntax.Proofs.Document.Speculation
import MarkupSyntax.Proofs.Event.Links
import MarkupSyntax.Proofs.Event.Draft
import MarkupSyntax.Proofs.Event.Intent
import MarkupSyntax.Proofs.Grammar.Arms
import MarkupSyntax.Proofs.Grammar.Forms
import MarkupSyntax.Proofs.Parse.Bears
import MarkupSyntax.Proofs.Document.Decoding
import MarkupSyntax.Proofs.Document.Domains
import MarkupSyntax.Proofs.Document.Nesting
import MarkupSyntax.Proofs.Document.Strays
import MarkupSyntax.Proofs.Document.Construct
import MarkupSyntax.Proofs.Document.ArmBody
import MarkupSyntax.Proofs.Document.Misplaced
import MarkupSyntax.Proofs.Document.Raw
import MarkupSyntax.Proofs.Document.PropertyList
import MarkupSyntax.Proofs.Token.Foresight
import MarkupSyntax.Proofs.Token.StringEscapes
import MarkupSyntax.Proofs.Token.StringEnd
import MarkupSyntax.Proofs.Document.LiteralDefinition
import MarkupSyntax.Proofs.Document.Siblings
import MarkupSyntax.Proofs.Token.Tiling
import MarkupSyntax.Proofs.Token.TextRuns
import MarkupSyntax.Proofs.Token.Respacing
import MarkupSyntax.Proofs.Document.Roots
import MarkupSyntax.Proofs.Document.Diagnostics
import MarkupSyntax.Proofs.Document.ElementForms
import MarkupSyntax.Proofs.Document.LiteralValue
import MarkupSyntax.Proofs.Text.Positions
import MarkupSyntax.Proofs.Parse.Foresees
import MarkupSyntax.Proofs.Parse.Skipping
import MarkupSyntax.Proofs.Document.Recovery
import MarkupSyntax.Proofs.Parse.Starts
import MarkupSyntax.Proofs.Grammar.Starts
import MarkupSyntax.Proofs.Parse.Onward
import MarkupSyntax.Proofs.Grammar.Onward
import MarkupSyntax.Proofs.Grammar.Routine
import MarkupSyntax.Proofs.Tree.Contained
import MarkupSyntax.Proofs.Document.Ranges
