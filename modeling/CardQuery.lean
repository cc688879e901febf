import CardQuery.Argument.Alias
import CardQuery.Argument.Kind
import CardQuery.Catalog.Basic
import CardQuery.Catalog.Vocabulary
import CardQuery.Cursor.Constraint
import CardQuery.Cursor.Tag
import CardQuery.Editor.Candidate
import CardQuery.Editor.Completion
import CardQuery.Editor.Diagnostic
import CardQuery.Editor.Fold
import CardQuery.Editor.Highlight
import CardQuery.Editor.Indent
import CardQuery.Editor.Session
import CardQuery.Editor.Settings
import CardQuery.Editor.Tooltip
import CardQuery.Expr.Basic
import CardQuery.Expr.Document
import CardQuery.Expr.Lowering
import CardQuery.Expr.Normal
import CardQuery.Expr.Printer
import CardQuery.Expr.Tag
import CardQuery.Json.Basic
import CardQuery.Json.Catalog
import CardQuery.Json.Expr
import CardQuery.Json.File
import CardQuery.Json.Magnitude
import CardQuery.Json.Query
import CardQuery.Json.Reader
import CardQuery.Json.Record
import CardQuery.Json.Settings
import CardQuery.Json.Writer
import CardQuery.Parse.Group
import CardQuery.Parse.Header
import CardQuery.Parse.Problem
import CardQuery.Parse.Program
import CardQuery.Parse.Term
import CardQuery.Proofs.Catalog.Response
import CardQuery.Proofs.Catalog.Updates
import CardQuery.Proofs.Cursor.Address
import CardQuery.Proofs.Cursor.Between
import CardQuery.Proofs.Cursor.Climb
import CardQuery.Proofs.Cursor.Exact
import CardQuery.Proofs.Cursor.Held
import CardQuery.Proofs.Cursor.Soundness
import CardQuery.Proofs.Cursor.Standing
import CardQuery.Proofs.Cursor.TagUnder
import CardQuery.Proofs.Cursor.Touching
import CardQuery.Proofs.Editor.CompletedTag
import CardQuery.Proofs.Editor.Findings
import CardQuery.Proofs.Editor.Folding
import CardQuery.Proofs.Editor.Highlighting
import CardQuery.Proofs.Editor.History
import CardQuery.Proofs.Editor.Indentation
import CardQuery.Proofs.Editor.LetterCase
import CardQuery.Proofs.Editor.Positions
import CardQuery.Proofs.Editor.ReadBack
import CardQuery.Proofs.Editor.Respelling
import CardQuery.Proofs.Editor.Suggestion
import CardQuery.Proofs.Editor.Verdict
import CardQuery.Proofs.Editor.Written
import CardQuery.Proofs.Expr.Canonical
import CardQuery.Proofs.Expr.Equivalence
import CardQuery.Proofs.Expr.Format
import CardQuery.Proofs.Expr.Printing
import CardQuery.Proofs.Expr.Reprint
import CardQuery.Proofs.Expr.RoundTrip
import CardQuery.Proofs.Expr.Terms
import CardQuery.Proofs.Expr.Truth
import CardQuery.Proofs.Json.Arrangement
import CardQuery.Proofs.Json.RoundTrip
import CardQuery.Proofs.Parse.Arrangement
import CardQuery.Proofs.Parse.Descent
import CardQuery.Proofs.Parse.DescentProgram
import CardQuery.Proofs.Parse.DescentRegion
import CardQuery.Proofs.Parse.DescentRow
import CardQuery.Proofs.Parse.DescentTerm
import CardQuery.Proofs.Parse.Flatten
import CardQuery.Proofs.Parse.Formed
import CardQuery.Proofs.Parse.Grammar
import CardQuery.Proofs.Parse.HeaderCut
import CardQuery.Proofs.Parse.Isolation
import CardQuery.Proofs.Parse.Joining
import CardQuery.Proofs.Parse.Layout
import CardQuery.Proofs.Parse.Lines
import CardQuery.Proofs.Parse.Lossless
import CardQuery.Proofs.Parse.Nesting
import CardQuery.Proofs.Parse.Phrase
import CardQuery.Proofs.Parse.Program
import CardQuery.Proofs.Parse.Progress
import CardQuery.Proofs.Parse.Region
import CardQuery.Proofs.Parse.Report
import CardQuery.Proofs.Parse.Respelling
import CardQuery.Proofs.Parse.Shape
import CardQuery.Proofs.Parse.SingleClause
import CardQuery.Proofs.Parse.Spelling
import CardQuery.Proofs.Parse.TermTokens
import CardQuery.Proofs.Query.Cuts
import CardQuery.Proofs.Query.Excision
import CardQuery.Proofs.Query.Extraction
import CardQuery.Proofs.Query.LastSetting
import CardQuery.Proofs.Query.Prune
import CardQuery.Proofs.Query.Request
import CardQuery.Proofs.Query.Residue
import CardQuery.Proofs.Query.Respelling
import CardQuery.Proofs.Query.Segment
import CardQuery.Proofs.Query.Spacing
import CardQuery.Proofs.Query.Strip
import CardQuery.Proofs.Query.Trim
import CardQuery.Proofs.Text.LineIndex
import CardQuery.Proofs.Token.Edge
import CardQuery.Proofs.Token.LetterCase
import CardQuery.Proofs.Token.Lexeme
import CardQuery.Proofs.Token.Literal
import CardQuery.Proofs.Token.OpenLiteral
import CardQuery.Proofs.Token.Slice
import CardQuery.Proofs.Tree.Arrangement
import CardQuery.Proofs.Tree.Defect
import CardQuery.Proofs.Tree.Faultless
import CardQuery.Proofs.Tree.Leaf
import CardQuery.Proofs.Tree.LiteralView
import CardQuery.Proofs.Tree.Nesting
import CardQuery.Proofs.Tree.Preorder
import CardQuery.Proofs.Tree.Respelling
import CardQuery.Proofs.Tree.Squeeze
import CardQuery.Query.Document
import CardQuery.Query.Request
import CardQuery.Query.Residue
import CardQuery.Query.Settings
import CardQuery.Text.Basic
import CardQuery.Text.Blank
import CardQuery.Text.LetterTable
import CardQuery.Text.LineIndex
import CardQuery.Text.Lowercase
import CardQuery.Token.Basic
import CardQuery.Token.Scanner
import CardQuery.Tree.Basic
import CardQuery.Tree.Focus
import CardQuery.Tree.Kind
import CardQuery.Tree.View
