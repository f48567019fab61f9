import AblResolve.Analysis
import AblResolve.Arena
import AblResolve.Catalog.Basic
import AblResolve.Catalog.Reader
import AblResolve.Catalog.Sample
import AblResolve.ClassInfo.Basic
import AblResolve.ClassInfo.Reader
import AblResolve.Diagnostic.Basic
import AblResolve.Diagnostic.Collection
import AblResolve.Diagnostic.Report
import AblResolve.Index.Basic
import AblResolve.Index.Block
import AblResolve.Index.HashedNames
import AblResolve.Index.Loading
import AblResolve.Index.NameTable
import AblResolve.Index.Scope
import AblResolve.Index.Symbol
import AblResolve.Index.Table
import AblResolve.Options
import AblResolve.Outer.Json.Basic
import AblResolve.Outer.Json.Decode
import AblResolve.Outer.Json.Lexer
import AblResolve.Outer.Json.Reader
import AblResolve.Outer.Position
import AblResolve.Proofs.Abbreviations
import AblResolve.Proofs.AccessModes
import AblResolve.Proofs.Accounting
import AblResolve.Proofs.Appending
import AblResolve.Proofs.Balance
import AblResolve.Proofs.Bindings
import AblResolve.Proofs.BufferScopes
import AblResolve.Proofs.BufferWidgets
import AblResolve.Proofs.ByteOffsets
import AblResolve.Proofs.Calmness
import AblResolve.Proofs.CatalogCopies
import AblResolve.Proofs.CatalogKeys
import AblResolve.Proofs.CatalogNames
import AblResolve.Proofs.Chains
import AblResolve.Proofs.Change
import AblResolve.Proofs.ClassMembers
import AblResolve.Proofs.Closing
import AblResolve.Proofs.Coherence
import AblResolve.Proofs.CompleteSymbols
import AblResolve.Proofs.Course
import AblResolve.Proofs.Deeds
import AblResolve.Proofs.DeedsOfActions
import AblResolve.Proofs.DeedsOfOperations
import AblResolve.Proofs.DeedsOfPlans
import AblResolve.Proofs.DefaultBuffers
import AblResolve.Proofs.Defaulting
import AblResolve.Proofs.Ends
import AblResolve.Proofs.Enter
import AblResolve.Proofs.EnterDefinitions
import AblResolve.Proofs.EnterReferences
import AblResolve.Proofs.Entries
import AblResolve.Proofs.Exits
import AblResolve.Proofs.FieldLists
import AblResolve.Proofs.FieldOutcomes
import AblResolve.Proofs.Finished
import AblResolve.Proofs.Flags
import AblResolve.Proofs.FoldedBytes
import AblResolve.Proofs.Footprint
import AblResolve.Proofs.ForwardBodies
import AblResolve.Proofs.GrownTrees
import AblResolve.Proofs.Growth
import AblResolve.Proofs.Handles
import AblResolve.Proofs.Handling
import AblResolve.Proofs.HashedNames
import AblResolve.Proofs.Hierarchy
import AblResolve.Proofs.Hints
import AblResolve.Proofs.IndexCopies
import AblResolve.Proofs.IndexInheritance
import AblResolve.Proofs.Keeping
import AblResolve.Proofs.LikeClauses
import AblResolve.Proofs.Likeness
import AblResolve.Proofs.ListedFields
import AblResolve.Proofs.Lookup
import AblResolve.Proofs.Moves
import AblResolve.Proofs.NameMatching
import AblResolve.Proofs.NameTables
import AblResolve.Proofs.OpenEvents
import AblResolve.Proofs.Operations
import AblResolve.Proofs.Outcome
import AblResolve.Proofs.Overwriting
import AblResolve.Proofs.OverwritingPlans
import AblResolve.Proofs.OverwritingSymbols
import AblResolve.Proofs.Parallel
import AblResolve.Proofs.ParallelDefinitions
import AblResolve.Proofs.ParallelEnter
import AblResolve.Proofs.ParallelPlans
import AblResolve.Proofs.ParallelSymbols
import AblResolve.Proofs.ParallelTables
import AblResolve.Proofs.ParallelVisit
import AblResolve.Proofs.ParameterLists
import AblResolve.Proofs.Passage
import AblResolve.Proofs.Pending
import AblResolve.Proofs.Perform
import AblResolve.Proofs.Placement
import AblResolve.Proofs.Plans
import AblResolve.Proofs.Qualifiers
import AblResolve.Proofs.Reached
import AblResolve.Proofs.ReadBack
import AblResolve.Proofs.Reanalysis
import AblResolve.Proofs.Recasing
import AblResolve.Proofs.Records
import AblResolve.Proofs.ReferenceBindings
import AblResolve.Proofs.References
import AblResolve.Proofs.Rounds
import AblResolve.Proofs.Settled
import AblResolve.Proofs.Settling
import AblResolve.Proofs.Spelling
import AblResolve.Proofs.Steps
import AblResolve.Proofs.Strides
import AblResolve.Proofs.Subtree
import AblResolve.Proofs.TableClauses
import AblResolve.Proofs.TableDefinition
import AblResolve.Proofs.TableIndexes
import AblResolve.Proofs.TableOwnership
import AblResolve.Proofs.Told
import AblResolve.Proofs.Trail
import AblResolve.Proofs.TypeClauses
import AblResolve.Proofs.Typing
import AblResolve.Proofs.Underlining
import AblResolve.Proofs.Unit
import AblResolve.Proofs.Unwind
import AblResolve.Proofs.Uses
import AblResolve.Proofs.VainLookups
import AblResolve.Proofs.Visibility
import AblResolve.Proofs.Visit
import AblResolve.Proofs.Writing
import AblResolve.Source.Line
import AblResolve.Source.Location
import AblResolve.Source.Offset
import AblResolve.Text.Blank
import AblResolve.Text.Bytes
import AblResolve.Text.Dotted
import AblResolve.Text.Fold
import AblResolve.Text.Match
import AblResolve.Text.Numeral
import AblResolve.Tree.Annotation
import AblResolve.Tree.Basic
import AblResolve.Tree.DataType
import AblResolve.Tree.Kind
import AblResolve.Tree.Outline
import AblResolve.Tree.Section
import AblResolve.Tree.Token
import AblResolve.Walk.Enter
import AblResolve.Walk.Enter.Definitions
import AblResolve.Walk.Enter.Phrases
import AblResolve.Walk.Enter.References
import AblResolve.Walk.Enter.Routines
import AblResolve.Walk.Enter.Tables
import AblResolve.Walk.Fault
import AblResolve.Walk.Lookup
import AblResolve.Walk.Perform
import AblResolve.Walk.Plan
import AblResolve.Walk.Scoping
import AblResolve.Walk.SideTable
import AblResolve.Walk.State
import AblResolve.Walk.Symbols
import AblResolve.Walk.TableDefinition
import AblResolve.Walk.Visit
