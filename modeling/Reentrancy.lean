import Reentrancy.Access
import Reentrancy.Analysis
import Reentrancy.Call
import Reentrancy.CommandLine
import Reentrancy.Config
import Reentrancy.ConfigFile
import Reentrancy.Detector
import Reentrancy.Failure
import Reentrancy.Flow.Block
import Reentrancy.Flow.Build
import Reentrancy.Flow.Cut
import Reentrancy.Flow.Graph
import Reentrancy.Flow.Refine
import Reentrancy.Inline.Template
import Reentrancy.Inline.Tokens
import Reentrancy.Inline.Walk
import Reentrancy.Json.Number
import Reentrancy.Json.Reader
import Reentrancy.Json.Value
import Reentrancy.Json.Writer
import Reentrancy.Location
import Reentrancy.Main
import Reentrancy.Project
import Reentrancy.Project.BuildTool
import Reentrancy.Project.Directory
import Reentrancy.Report.Json
import Reentrancy.Report.Text
import Reentrancy.Ssa.Body
import Reentrancy.Ssa.Instruction
import Reentrancy.Ssa.Lowering
import Reentrancy.Ssa.Numbering
import Reentrancy.Ssa.Phi
import Reentrancy.Ssa.Piece
import Reentrancy.Ssa.Validity
import Reentrancy.Ssa.Versions
import Reentrancy.Table
import Reentrancy.Text.Blank
import Reentrancy.Text.Decimal
import Reentrancy.Text.Hexadecimal
import Reentrancy.Text.Search
import Reentrancy.Tree.Contract
import Reentrancy.Tree.Expression
import Reentrancy.Tree.Node
import Reentrancy.Tree.Reading
import Reentrancy.Tree.Source
import Reentrancy.Tree.Statement
import Reentrancy.Yaml.Block
import Reentrancy.Yaml.Cursor
import Reentrancy.Yaml.Document
import Reentrancy.Yaml.Scalar
import Reentrancy.Yaml.Tag
import Reentrancy.Yaml.Token
import Reentrancy.Yaml.Token.Lexer
import Reentrancy.Yaml.Value
import Reentrancy.Proofs.Table
import Reentrancy.Proofs.Text
import Reentrancy.Proofs.Lowering.Laws
import Reentrancy.Proofs.Lowering.Actions
import Reentrancy.Proofs.Lowering.Run
import Reentrancy.Proofs.Ssa.Definitions
import Reentrancy.Proofs.Ssa.Numbering
import Reentrancy.Proofs.Ssa.Phi
import Reentrancy.Proofs.Inline.Expansion
import Reentrancy.Proofs.Flow.Cut
import Reentrancy.Proofs.Ssa.Pieces
import Reentrancy.Proofs.Inline.Templates
import Reentrancy.Proofs.Ssa.SingleAssignment
import Reentrancy.Proofs.Flow.Graph
import Reentrancy.Proofs.Flow.Ids
import Reentrancy.Proofs.Flow.Shape
import Reentrancy.Proofs.Ssa.Validity
import Reentrancy.Proofs.Lowering.Agreement
import Reentrancy.Proofs.Flow.Order
import Reentrancy.Proofs.Lowering.Calls
import Reentrancy.Proofs.Flow.Reachability
import Reentrancy.Proofs.Ssa.Splitting
import Reentrancy.Proofs.Detector.Hits
import Reentrancy.Proofs.Detector.Ordered
import Reentrancy.Proofs.Detector.Reachability
import Reentrancy.Proofs.Analysis.Entrypoints
import Reentrancy.Proofs.Inline.Names
import Reentrancy.Proofs.Lowering.Arguments
import Reentrancy.Proofs.Inline.Alike
import Reentrancy.Proofs.Detector.Effects
import Reentrancy.Proofs.Inline.Depth
import Reentrancy.Proofs.Analysis.Depth
import Reentrancy.Proofs.Flow.Edges
import Reentrancy.Proofs.Flow.Loops
import Reentrancy.Proofs.Ssa.Exits
import Reentrancy.Proofs.Inline.Walks
import Reentrancy.Proofs.Ssa.PhiSources
import Reentrancy.Proofs.Flow.Straight
import Reentrancy.Proofs.Meaning.Scalar
import Reentrancy.Proofs.Ssa.Straight
import Reentrancy.Proofs.Meaning.Execution
import Reentrancy.Proofs.Meaning.Lowering
import Reentrancy.Proofs.Meaning.Build
import Reentrancy.Proofs.Inline.Trace
import Reentrancy.Proofs.Inline.Hygiene
import Reentrancy.Proofs.Meaning.Renumbering
import Reentrancy.Proofs.Meaning.Expansion
import Reentrancy.Proofs.Meaning.Program
import Reentrancy.Proofs.Meaning.Inline
import Reentrancy.Proofs.Meaning.Direct
import Reentrancy.Proofs.Flow.Layout
import Reentrancy.Proofs.Ssa.Layout
import Reentrancy.Proofs.Detector.Modes
import Reentrancy.Proofs.Flow.Passage
import Reentrancy.Proofs.Ssa.Definedness
import Reentrancy.Proofs.Ssa.Provenance
import Reentrancy.Proofs.Ssa.Joins
import Reentrancy.Proofs.Inline.Definedness
import Reentrancy.Proofs.Lowering.Parentheses
import Reentrancy.Proofs.Analysis.Members
import Reentrancy.Proofs.Ssa.Places
import Reentrancy.Proofs.Inline.Binding
import Reentrancy.Proofs.Lowering.Regular
import Reentrancy.Proofs.Lowering.Writes
import Reentrancy.Proofs.Lowering.Tracking
import Reentrancy.Proofs.Ssa.Placement
import Reentrancy.Proofs.Ssa.Headers
import Reentrancy.Proofs.Ssa.Current
import Reentrancy.Proofs.Ssa.Rejoining
import Reentrancy.Proofs.Flow.TopLoops
import Reentrancy.Proofs.Ssa.LoopPhis
import Reentrancy.Proofs.Ssa.Lookups
import Reentrancy.Proofs.Inline.Insertion
import Reentrancy.Proofs.Inline.Nesting
import Reentrancy.Proofs.Flow.TopBranches
import Reentrancy.Proofs.Flow.Rings
import Reentrancy.Proofs.Ssa.Arms
import Reentrancy.Proofs.Detector.Loops
import Reentrancy.Proofs.Flow.Partition
import Reentrancy.Proofs.Ssa.Grouping
import Reentrancy.Proofs.Flow.Accesses
import Reentrancy.Proofs.Ssa.CallSites
import Reentrancy.Proofs.Flow.Routes
import Reentrancy.Proofs.Ssa.Faults
import Reentrancy.Proofs.Location
import Reentrancy.Proofs.Position
import Reentrancy.Proofs.Detector.Locations
import Reentrancy.Proofs.Ssa.Bookkeeping
