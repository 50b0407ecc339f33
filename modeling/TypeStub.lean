import TypeStub.Build
import TypeStub.Command
import TypeStub.Condition
import TypeStub.Convert
import TypeStub.Declare
import TypeStub.Decorator
import TypeStub.Diagnostic
import TypeStub.Digest
import TypeStub.Fault
import TypeStub.Files
import TypeStub.Grammar.Condition
import TypeStub.Grammar.Definition
import TypeStub.Grammar.Literal
import TypeStub.Grammar.Parser
import TypeStub.Grammar.Statement
import TypeStub.Grammar.Stub
import TypeStub.Grammar.TypeExpr
import TypeStub.Host
import TypeStub.Load
import TypeStub.Main
import TypeStub.Merge
import TypeStub.Metrics
import TypeStub.Module
import TypeStub.Names
import TypeStub.Number.Binary64
import TypeStub.Number.Literal
import TypeStub.Numbering
import TypeStub.Options
import TypeStub.Prescan
import TypeStub.Print.Module
import TypeStub.Print.Piece
import TypeStub.Print.Type
import TypeStub.Proofs.Build.Alike
import TypeStub.Proofs.Build.Back
import TypeStub.Proofs.Build.Converted
import TypeStub.Proofs.Build.Declare
import TypeStub.Proofs.Build.Faults
import TypeStub.Proofs.Build.Internal
import TypeStub.Proofs.Build.Merge
import TypeStub.Proofs.Build.Parameters
import TypeStub.Proofs.Build.Reread
import TypeStub.Proofs.Build.Signature
import TypeStub.Proofs.Command.Delivery
import TypeStub.Proofs.Command.Frame
import TypeStub.Proofs.Command.Replace
import TypeStub.Proofs.Command.Run
import TypeStub.Proofs.Condition.Leaves
import TypeStub.Proofs.Convert.Back
import TypeStub.Proofs.Convert.Closed
import TypeStub.Proofs.Convert.Numbered
import TypeStub.Proofs.Convert.Opened
import TypeStub.Proofs.Convert.RoundTrip
import TypeStub.Proofs.Convert.Spellings
import TypeStub.Proofs.Convert.Titles
import TypeStub.Proofs.Convert.TypeNames
import TypeStub.Proofs.Ensures
import TypeStub.Proofs.Files.Frame
import TypeStub.Proofs.Grammar.Alongside
import TypeStub.Proofs.Grammar.AlongsideReads
import TypeStub.Proofs.Grammar.Chain
import TypeStub.Proofs.Grammar.ClassReads
import TypeStub.Proofs.Grammar.ConstantText
import TypeStub.Proofs.Grammar.DefinitionReads
import TypeStub.Proofs.Grammar.DefinitionText
import TypeStub.Proofs.Grammar.Depth
import TypeStub.Proofs.Grammar.EmptyBody
import TypeStub.Proofs.Grammar.EmptyText
import TypeStub.Proofs.Grammar.Exchange
import TypeStub.Proofs.Grammar.ExchangeModule
import TypeStub.Proofs.Grammar.ExchangeReads
import TypeStub.Proofs.Grammar.HeaderExact
import TypeStub.Proofs.Grammar.HeaderGrammar
import TypeStub.Proofs.Grammar.Located
import TypeStub.Proofs.Grammar.ModuleText
import TypeStub.Proofs.Grammar.Openings
import TypeStub.Proofs.Grammar.Parsed
import TypeStub.Proofs.Grammar.Progress
import TypeStub.Proofs.Grammar.Reads
import TypeStub.Proofs.Grammar.Scoped
import TypeStub.Proofs.Grammar.StatementReads
import TypeStub.Proofs.Grammar.StatementText
import TypeStub.Proofs.Grammar.Twin
import TypeStub.Proofs.Grammar.TwinLines
import TypeStub.Proofs.Grammar.TypeBalanced
import TypeStub.Proofs.Grammar.TypeComplete
import TypeStub.Proofs.Grammar.TypeGrammar
import TypeStub.Proofs.Grammar.TypeReads
import TypeStub.Proofs.Grammar.TypeSound
import TypeStub.Proofs.Grammar.TypedConstant
import TypeStub.Proofs.Grammar.Walk
import TypeStub.Proofs.Grammar.Within
import TypeStub.Proofs.Grammar.Written
import TypeStub.Proofs.Grammar.Yields
import TypeStub.Proofs.Live.Classes
import TypeStub.Proofs.Live.Declarations
import TypeStub.Proofs.Live.Declare
import TypeStub.Proofs.Live.Definitions
import TypeStub.Proofs.Live.Faults
import TypeStub.Proofs.Live.Ordinary
import TypeStub.Proofs.Live.Prescan
import TypeStub.Proofs.Live.Scope
import TypeStub.Proofs.Live.Selection
import TypeStub.Proofs.Live.Statements
import TypeStub.Proofs.Live.TextOrder
import TypeStub.Proofs.Load.Accessors
import TypeStub.Proofs.Load.Alike
import TypeStub.Proofs.Load.Bound
import TypeStub.Proofs.Load.Canonical
import TypeStub.Proofs.Load.Declared
import TypeStub.Proofs.Load.Faults
import TypeStub.Proofs.Load.FunctionBack
import TypeStub.Proofs.Load.Measured
import TypeStub.Proofs.Load.Named
import TypeStub.Proofs.Load.Numbered
import TypeStub.Proofs.Load.Outcome
import TypeStub.Proofs.Load.Reload
import TypeStub.Proofs.Load.Safe
import TypeStub.Proofs.Load.Scope
import TypeStub.Proofs.Load.Selection
import TypeStub.Proofs.Load.TypedConstant
import TypeStub.Proofs.Load.Unique
import TypeStub.Proofs.Merge.Accessors
import TypeStub.Proofs.Merge.Back
import TypeStub.Proofs.Merge.Faults
import TypeStub.Proofs.Merge.FirstOrder
import TypeStub.Proofs.Merge.Functions
import TypeStub.Proofs.Merge.Members
import TypeStub.Proofs.Metrics.Json
import TypeStub.Proofs.Metrics.Summary
import TypeStub.Proofs.Module.QualifiedBy
import TypeStub.Proofs.Module.Types
import TypeStub.Proofs.Names.Resolve
import TypeStub.Proofs.Number.Finite
import TypeStub.Proofs.Number.Literal
import TypeStub.Proofs.Number.Spelling
import TypeStub.Proofs.Options.Reorder
import TypeStub.Proofs.Options.Version
import TypeStub.Proofs.Print.Function
import TypeStub.Proofs.Print.ImportSection
import TypeStub.Proofs.Print.Needs
import TypeStub.Proofs.Print.NoneLast
import TypeStub.Proofs.Print.Printable
import TypeStub.Proofs.Print.Statements
import TypeStub.Proofs.Print.Told
import TypeStub.Proofs.Print.Type
import TypeStub.Proofs.Print.Typed
import TypeStub.Proofs.Print.Uses
import TypeStub.Proofs.Syntax.Alike
import TypeStub.Proofs.Table.Ordered
import TypeStub.Proofs.Target.Order
import TypeStub.Proofs.Target.Slice
import TypeStub.Proofs.Text.Beginning
import TypeStub.Proofs.Throughout
import TypeStub.Proofs.Token.Above
import TypeStub.Proofs.Token.Account
import TypeStub.Proofs.Token.Before
import TypeStub.Proofs.Token.Block
import TypeStub.Proofs.Token.Breaks
import TypeStub.Proofs.Token.Extent
import TypeStub.Proofs.Token.Identifier
import TypeStub.Proofs.Token.Indent
import TypeStub.Proofs.Token.Joined
import TypeStub.Proofs.Token.Layout
import TypeStub.Proofs.Token.Lossless
import TypeStub.Proofs.Token.Margin
import TypeStub.Proofs.Token.Moved
import TypeStub.Proofs.Token.Onto
import TypeStub.Proofs.Token.Placed
import TypeStub.Proofs.Token.Quoted
import TypeStub.Proofs.Token.Reach
import TypeStub.Proofs.Token.Reader
import TypeStub.Proofs.Token.Scan
import TypeStub.Proofs.Token.Shape
import TypeStub.Proofs.Token.Shown
import TypeStub.Proofs.Token.Spacing
import TypeStub.Proofs.Token.Spelling
import TypeStub.Proofs.Token.Spot
import TypeStub.Proofs.Token.Tiles
import TypeStub.Proofs.Token.TripleQuoted
import TypeStub.Proofs.Ty.Bound
import TypeStub.Proofs.Ty.Canonical
import TypeStub.Proofs.Ty.NoneLast
import TypeStub.Proofs.Ty.Union
import TypeStub.Qualify
import TypeStub.Syntax
import TypeStub.Syntax.Outline
import TypeStub.Table
import TypeStub.Target
import TypeStub.Text
import TypeStub.Token
import TypeStub.Token.Cursor
import TypeStub.Token.Lexeme
import TypeStub.Token.Progress
import TypeStub.Token.Reader
import TypeStub.Token.Stream
import TypeStub.Ty
import TypeStub.Unique
