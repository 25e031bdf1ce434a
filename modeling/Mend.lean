import Mend.Text.Span
import Mend.Text.Slice
import Mend.Text.Blank
import Mend.Text.Lines
import Mend.Text.Letter
import Mend.Text.LetterCase
import Mend.Edit.Delta
import Mend.Edit.ChangeSet
import Mend.StableSort
import Mend.Edit.Plan
import Mend.Document.History
import Mend.Document.Basic
import Mend.Document.Block
import Mend.Indent.Style
import Mend.Indent.Scan
import Mend.Indent.Reindent
import Mend.NameMap
import Mend.Json.Value
import Mend.Json.Reader
import Mend.Settings.Basic
import Mend.Settings.File
import Mend.Document.Apply
import Mend.Workspace
import Mend.Code.Token
import Mend.Code.Error
import Mend.Code.Lexer
import Mend.Code.Rose
import Mend.Code.Tree
import Mend.Code.Parser.Basic
import Mend.Code.Parser.Expression
import Mend.Code.Parser.Declaration
import Mend.Code.Parser.Statement
import Mend.Code.Parser.File
import Mend.Code.SourceCode
import Mend.Symbols.SpelledType
import Mend.Symbols.Table
import Mend.Symbols.Bind
import Mend.Text.Rows
import Mend.Snapshot.ParsedFile
import Mend.Snapshot.Lookup
import Mend.Snapshot.Typing
import Mend.Fix.IntegerLiteral
import Mend.Fix.CamelCase
import Mend.Fix.FilePath
import Mend.Fix.Insertion
import Mend.Fix.Query
import Mend.Fix.Patch
import Mend.Fix.Comparison
import Mend.Fix.Branch
import Mend.Fix.Declaration
import Mend.Fix.Literal
import Mend.Fix.Header
import Mend.Fix.Member
import Mend.Fix.Rename
import Mend.Fix.Catalogue
import Mend.Proofs.Planned
import Mend.Proofs.Weave
import Mend.Proofs.OffsetMap
import Mend.Proofs.Overlap
import Mend.Proofs.Subtrees
import Mend.Proofs.Layout
import Mend.Proofs.ParserRules
import Mend.Proofs.ParsedExpressions
import Mend.Proofs.ParsedDeclarations
import Mend.Proofs.ParsedStatements
import Mend.Proofs.SyntaxTrees
import Mend.Proofs.SourcePositions
import Mend.Proofs.FittingChanges
import Mend.Proofs.RecordingOrder
import Mend.Proofs.JsonText
import Mend.Proofs.SettingsFiles
import Mend.Proofs.NodeChildren
import Mend.Proofs.ScopeTree
import Mend.Proofs.BoundSymbols
import Mend.Proofs.ReachedNodes
import Mend.Proofs.VisibleScopes
import Mend.Proofs.CursorPaths
import Mend.Proofs.ComparisonFixes
import Mend.Proofs.LiteralFixes
import Mend.Proofs.DeclarationFixes
import Mend.Proofs.BranchFixes
import Mend.Proofs.InsertionFixes
import Mend.Proofs.Draft
import Mend.Proofs.LiveDelta
import Mend.Proofs.DocumentRun
import Mend.Proofs.UndoHistory
import Mend.Proofs.Reindentation
import Mend.Proofs.Atomicity
import Mend.Proofs.OfferedFixes
import Mend.Proofs.StaleFixes
import Mend.Proofs.Revisions
import Mend.Proofs.IndentedLines
import Mend.Proofs.SettledIndentation
import Mend.Proofs.LeadingBlanks
import Mend.Proofs.CaretThroughChange
import Mend.Proofs.CaretInText
import Mend.Proofs.ReportedOutcome
import Mend.Proofs.Reblanking
import Mend.Proofs.ReblankedTokens
import Mend.Proofs.ExpressionGrammar
import Mend.Proofs.ParserRuns
import Mend.Proofs.ExpressionSoundness
import Mend.Proofs.ExpressionCompleteness
import Mend.Proofs.PrecedenceClimbing
import Mend.Proofs.IfStatements
import Mend.Proofs.TwinRuns
import Mend.Proofs.TwinExpressions
import Mend.Proofs.TwinDeclarations
import Mend.Proofs.TwinStatements
import Mend.Proofs.FollowedStatements
import Mend.Proofs.EnoughRounds
import Mend.Proofs.ReplacedStatement
import Mend.Proofs.OperandChains
import Mend.Proofs.SplitConditions
import Mend.Proofs.ReadingEnds
import Mend.Proofs.NodesAtOffset
import Mend.Proofs.ScopesAtTokens
import Mend.Proofs.ClassBodies
import Mend.Proofs.LexemeChains
import Mend.Proofs.ExchangedNode
import Mend.Proofs.OwnTokens
import Mend.Proofs.ReplacedOperands
import Mend.Proofs.JoinedNegations
import Mend.Proofs.WovenStretches
import Mend.Proofs.JoinedNegationText
import Mend.Proofs.BraceRows
import Mend.Proofs.OpenBraces
import Mend.Proofs.WrittenTrees
import Mend.Proofs.DeMorgan
import Mend.Proofs.LexemeStretches
import Mend.Proofs.SplitStatements
import Mend.Proofs.SplitText
import Mend.Proofs.SplitTrees
import Mend.Proofs.SplitIf
import Mend.Proofs.TokenTiling
import Mend.Proofs.LexedLines
import Mend.Proofs.IncludeLines
import Mend.Proofs.RowPositions
import Mend.Proofs.TokenEnds
import Mend.Proofs.MemberPoints
import Mend.Proofs.RenamedUses
import Mend.Proofs.MissingCases
import Mend.Proofs.SpacedTokens
import Mend.Proofs.FlippedSpans
import Mend.Proofs.IntegerSpellings
import Mend.Proofs.ReadDeclarations
import Mend.Proofs.SplitDeclarations
import Mend.Proofs.SpelledSignatures
import Mend.Proofs.NodeMeanings
import Mend.Proofs.SpelledDeclarations
import Mend.Proofs.DeclaredSignatures
import Mend.Proofs.MemberAccess
import Mend.Proofs.ReadTypes
import Mend.Proofs.ReadSignatures
import Mend.Proofs.DisabledFixes
import Mend.Proofs.LinePositions
import Mend.Proofs.MeasuredIndentation
