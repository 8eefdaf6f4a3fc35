import Requalify.Catalog
import Requalify.Catalog.Builtin
import Requalify.Codebase
import Requalify.CommandLine
import Requalify.CommandLine.Execution
import Requalify.CommandLine.Help
import Requalify.CommandLine.Reading
import Requalify.Configuration
import Requalify.Data
import Requalify.Declaration
import Requalify.Digest
import Requalify.Disk
import Requalify.Edit
import Requalify.FileFilter
import Requalify.FilePath
import Requalify.Glob
import Requalify.Glob.Nesting
import Requalify.Glob.Reading
import Requalify.JsonValue
import Requalify.Main
import Requalify.Matches
import Requalify.ModuleName
import Requalify.NameChain
import Requalify.NamespacePath
import Requalify.Node
import Requalify.Outline
import Requalify.Outline.Draft
import Requalify.Outline.Reading
import Requalify.Patch
import Requalify.Patch.LineDiff
import Requalify.Patch.Splice
import Requalify.Patch.Store
import Requalify.PatchedFile
import Requalify.Policy
import Requalify.Policy.Reading
import Requalify.Project
import Requalify.Project.Run
import Requalify.Proofs.Accounting
import Requalify.Proofs.Declared
import Requalify.Proofs.Diff.Applied
import Requalify.Proofs.Diff.Blocks
import Requalify.Proofs.Diff.Hunks
import Requalify.Proofs.Diff.Lines
import Requalify.Proofs.Diff.NewSide
import Requalify.Proofs.Diff.Preview
import Requalify.Proofs.Diff.Reading
import Requalify.Proofs.Diff.Ties
import Requalify.Proofs.Disambiguation
import Requalify.Proofs.Edit.Absolute
import Requalify.Proofs.Edit.Apart
import Requalify.Proofs.Edit.Completion
import Requalify.Proofs.Edit.Disambiguated
import Requalify.Proofs.Edit.Extent
import Requalify.Proofs.Edit.Landmark
import Requalify.Proofs.Edit.Layout
import Requalify.Proofs.Edit.Matches
import Requalify.Proofs.Edit.NamedTokens
import Requalify.Proofs.Edit.Names
import Requalify.Proofs.Edit.Node
import Requalify.Proofs.Edit.Pieces
import Requalify.Proofs.Edit.Qualified
import Requalify.Proofs.Edit.Qualifier
import Requalify.Proofs.Edit.Removal
import Requalify.Proofs.Edit.Requalified
import Requalify.Proofs.Edit.Reread
import Requalify.Proofs.Edit.Spelling
import Requalify.Proofs.Edit.Symbol
import Requalify.Proofs.Edit.Untouched
import Requalify.Proofs.Edit.Written
import Requalify.Proofs.FilePath
import Requalify.Proofs.Holdings
import Requalify.Proofs.Idempotence
import Requalify.Proofs.Lookup
import Requalify.Proofs.Lookup.Anonymous
import Requalify.Proofs.Lookup.Kept
import Requalify.Proofs.Lookup.Nested
import Requalify.Proofs.Lookup.OnDemand
import Requalify.Proofs.Lookup.Reached
import Requalify.Proofs.Lookup.Search
import Requalify.Proofs.Lookup.Settled
import Requalify.Proofs.Lookup.Shadowing
import Requalify.Proofs.Lookup.Sight
import Requalify.Proofs.Lookup.Termination
import Requalify.Proofs.Lookup.Unfolded
import Requalify.Proofs.Lookup.Unseen
import Requalify.Proofs.Lookup.Writable
import Requalify.Proofs.Meaning
import Requalify.Proofs.ModuleName.Confusion
import Requalify.Proofs.ModuleName.Spelling
import Requalify.Proofs.Naming
import Requalify.Proofs.Outline.Ancestors
import Requalify.Proofs.Outline.Anonymous
import Requalify.Proofs.Outline.Bodies
import Requalify.Proofs.Outline.Braces
import Requalify.Proofs.Outline.Bracing
import Requalify.Proofs.Outline.Cursor
import Requalify.Proofs.Outline.Cursor.Search
import Requalify.Proofs.Outline.Cursor.Step
import Requalify.Proofs.Outline.Definitions
import Requalify.Proofs.Outline.Elaborated
import Requalify.Proofs.Outline.Faultless
import Requalify.Proofs.Outline.Follows
import Requalify.Proofs.Outline.Footprint
import Requalify.Proofs.Outline.Heads
import Requalify.Proofs.Outline.Laminar
import Requalify.Proofs.Outline.Lockstep
import Requalify.Proofs.Outline.Lookahead
import Requalify.Proofs.Outline.Nest
import Requalify.Proofs.Outline.Nesting
import Requalify.Proofs.Outline.Parameters
import Requalify.Proofs.Outline.Parked
import Requalify.Proofs.Outline.Passage
import Requalify.Proofs.Outline.Paths
import Requalify.Proofs.Outline.Simulation
import Requalify.Proofs.Outline.Stays
import Requalify.Proofs.Outline.Steady
import Requalify.Proofs.Outline.Step
import Requalify.Proofs.Outline.Stops
import Requalify.Proofs.Outline.Strides
import Requalify.Proofs.Outline.Trail
import Requalify.Proofs.Outline.TypeLike
import Requalify.Proofs.Outline.Unfolded
import Requalify.Proofs.Outline.Writable
import Requalify.Proofs.Patch.Acceptance
import Requalify.Proofs.Patch.Compatible
import Requalify.Proofs.Patch.Order
import Requalify.Proofs.Patch.Rewriting
import Requalify.Proofs.Patch.Splice
import Requalify.Proofs.Patch.Woven
import Requalify.Proofs.Project.AllOrNothing
import Requalify.Proofs.Project.Asking
import Requalify.Proofs.Project.Selection
import Requalify.Proofs.Project.Writing
import Requalify.Proofs.Queries
import Requalify.Proofs.Run
import Requalify.Proofs.Statements
import Requalify.Proofs.Text.Character
import Requalify.Proofs.Text.Encoding
import Requalify.Proofs.Text.Growth
import Requalify.Proofs.Text.Position
import Requalify.Proofs.Text.Removal
import Requalify.Proofs.Text.Removals
import Requalify.Proofs.Text.Trim
import Requalify.Proofs.Token.Ahead
import Requalify.Proofs.Token.Behind
import Requalify.Proofs.Token.Border
import Requalify.Proofs.Token.Chain
import Requalify.Proofs.Token.Chunk
import Requalify.Proofs.Token.Cursor
import Requalify.Proofs.Token.Directives
import Requalify.Proofs.Token.Edited
import Requalify.Proofs.Token.Inserted
import Requalify.Proofs.Token.Insertions
import Requalify.Proofs.Token.Joined
import Requalify.Proofs.Token.Lossless
import Requalify.Proofs.Token.MacroLine
import Requalify.Proofs.Token.Names
import Requalify.Proofs.Token.Place
import Requalify.Proofs.Token.Punctuator
import Requalify.Proofs.Token.Requalified
import Requalify.Proofs.Token.Rewritten
import Requalify.Proofs.Token.Scan
import Requalify.Proofs.Token.Segments
import Requalify.Proofs.Token.Start
import Requalify.Proofs.Token.Terminator
import Requalify.Qualification
import Requalify.Resolution
import Requalify.RunError
import Requalify.Session
import Requalify.Source
import Requalify.Span
import Requalify.Summary
import Requalify.Text.Blank
import Requalify.Text.Offset
import Requalify.Text.Position
import Requalify.Text.Printable
import Requalify.Text.Quoted
import Requalify.Text.Removal
import Requalify.Text.Upper
import Requalify.Token
import Requalify.Token.Lexer
import Requalify.Token.Lookaround
import Requalify.Toml.Reading
import Requalify.Toml.Scalar
import Requalify.Toml.Table
import Requalify.Tree
import Requalify.UsingStatement
import Requalify.WrittenQualifier
