import SchemaLint.Main
import SchemaLint.Proofs.Linter.Report
import SchemaLint.Proofs.Token.Scan
import SchemaLint.Proofs.Token.Tiling
import SchemaLint.Proofs.Parse.Basic
import SchemaLint.Proofs.Parse.Words
import SchemaLint.Proofs.Parse.Dotted
import SchemaLint.Proofs.Rename.Tree
import SchemaLint.Proofs.Parse.Piece
import SchemaLint.Proofs.Parse.Statement
import SchemaLint.Proofs.Parse.Named
import SchemaLint.Proofs.Parse.Header
import SchemaLint.Proofs.Parse.Declaration
import SchemaLint.Proofs.Locate.Dotted
import SchemaLint.Proofs.Rename.Place
import SchemaLint.Proofs.Edit.Arrange
import SchemaLint.Proofs.Edit.Splice
import SchemaLint.Proofs.Casing.Convert
import SchemaLint.Proofs.Rule.Demand
import SchemaLint.Proofs.Linter.Findings
import SchemaLint.Proofs.Rule.Edits
import SchemaLint.Proofs.Parse.File
import SchemaLint.Proofs.Linter.Renames
import SchemaLint.Proofs.Linter.Proposals
import SchemaLint.Proofs.Directive.Line
import SchemaLint.Proofs.Directive.Shield
import SchemaLint.Proofs.Directive.Gap
import SchemaLint.Proofs.Directive.Renamed
import SchemaLint.Proofs.Linter.Fixed
import SchemaLint.Proofs.Linter.Builtin
import SchemaLint.Proofs.Linter.NamesOnly
import SchemaLint.Proofs.Edit.Exact
import SchemaLint.Proofs.Linter.Order
import SchemaLint.Proofs.Linter.Files
import SchemaLint.Proofs.Grammar.Body
import SchemaLint.Proofs.Token.Shape
import SchemaLint.Proofs.Token.Exact
import SchemaLint.Proofs.Linter.Verify
import SchemaLint.Proofs.Linter.Visits
import SchemaLint.Proofs.Linter.OwnFailures
import SchemaLint.Proofs.Text.Search
import SchemaLint.Proofs.Token.Comment
import SchemaLint.Proofs.Directive.Content
import SchemaLint.Proofs.Directive.Comment
import SchemaLint.Proofs.Linter.FixingPart
import SchemaLint.Proofs.Layout.Words
import SchemaLint.Proofs.Layout.Statement
import SchemaLint.Proofs.Span.Place
import SchemaLint.Proofs.Linter.DocumentOrder
import SchemaLint.Proofs.Linter.Rising
import SchemaLint.Proofs.Token.Settle
import SchemaLint.Proofs.Token.Renamed
import SchemaLint.Proofs.Locate.Anywhere
import SchemaLint.Proofs.Locate.Introduced
import SchemaLint.Proofs.Locate.Declared
import SchemaLint.Proofs.Locate.Respelled
import SchemaLint.Proofs.Casing.Letter
import SchemaLint.Proofs.Casing.Words
import SchemaLint.Proofs.Casing.Stable
import SchemaLint.Proofs.Rule.FirstValue
import SchemaLint.Proofs.Rule.Registered
import SchemaLint.Proofs.Rule.Selected
import SchemaLint.Proofs.Directive.Written
import SchemaLint.Proofs.Discover.Once
