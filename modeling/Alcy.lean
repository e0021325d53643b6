import Alcy.Diag
import Alcy.Ast
import Alcy.Lib.Search
import Alcy.Lib.Guards
import Alcy.Lib.Traced
import Alcy.Lib.Unfold
import Alcy.Analyzer.Resolve
import Alcy.Analyzer.Imports
import Alcy.Analyzer.ExportCycles
import Alcy.Lexer.Token
import Alcy.Lexer.Lexer
import Alcy.Lexer.Cursor
import Alcy.Lexer.Shape
import Alcy.Lexer.Steps
import Alcy.Lexer.Lossless
import Alcy.Parser.Cursor
import Alcy.Parser.Types
import Alcy.Parser.Exprs
import Alcy.Parser.Items
import Alcy.Parser.Safe
import Alcy.Parser.Totality
import Alcy.Parser.Desugar
import Alcy.Parser.Scoping
import Alcy.Parser.Renaming
import Alcy.Parser.DesugarPatterns
import Alcy.Parser.DesugarSound
import Alcy.Ir.Storage
import Alcy.Ir.Verifier
import Alcy.Ir.Accepted
import Alcy.Ir.Safe
import Alcy.Ir.WellFormed
import Alcy.Ir.Shapes
import Alcy.Codegen.Emitter
import Alcy.Codegen.Walk
import Alcy.Codegen.Steps
import Alcy.Codegen.Guarded
import Alcy.Codegen.TypeIndexes
import Alcy.Path
import Alcy.Pkg.Manifest
import Alcy.Pkg.Resolve
import Alcy.Lib.Coupled
import Alcy.Codegen.Permute
import Alcy.Codegen.Calls
import Alcy.Analyzer.Provided
import Alcy.Analyzer.UseOrder
import Alcy.Lib.Total
import Alcy.Ir.Builder
import Alcy.Ir.Values
import Alcy.Analyzer.Types
import Alcy.Analyzer.TypeTable
import Alcy.Analyzer.TypeSteps
import Alcy.Analyzer.Nominals
import Alcy.Analyzer.CheckPackage
import Alcy.Analyzer.Layout
import Alcy.Analyzer.Walkers
import Alcy.Analyzer.Turns
import Alcy.Lexer.Errors
import Alcy.Analyzer.Scopes
import Alcy.Analyzer.Names
import Alcy.Analyzer.Patterns
import Alcy.Analyzer.Exhaustive
import Alcy.Analyzer.Operands
import Alcy.Analyzer.Exprs
import Alcy.Analyzer.Bodies
import Alcy.Lib.Contracts
import Alcy.Analyzer.Onward
import Alcy.Analyzer.BodyRule
import Alcy.Analyzer.ExprRule
import Alcy.Analyzer.ScopeRule
import Alcy.Analyzer.Contexts
import Alcy.Analyzer.Callees
import Alcy.Analyzer.OrPatterns
import Alcy.Analyzer.Coverage
import Alcy.Analyzer.Never
import Alcy.Analyzer.Matching
import Alcy.Analyzer.PatternSteps
import Alcy.Analyzer.Refutable
import Alcy.Parser.OrNames
import Alcy.Lexer.Course
import Alcy.Lexer.Lookahead
import Alcy.Lexer.Newlines
import Alcy.Lexer.NextCode
import Alcy.Analyzer.Suffixes
import Alcy.Parser.Plain
import Alcy.Parser.Reading
import Alcy.Parser.TypeText
import Alcy.Parser.PatternText
import Alcy.Parser.ExprText
import Alcy.Parser.Scanning
import Alcy.Parser.Operators
import Alcy.Parser.Primaries
import Alcy.Parser.ReadBack
import Alcy.Parser.Unparse
import Alcy.Parser.Refusing
import Alcy.Parser.Parentheses
import Alcy.Parser.Statements
import Alcy.Parser.Keeping
import Alcy.Parser.Outcomes
import Alcy.Parser.Edges
import Alcy.Parser.Bare
import Alcy.Parser.Conditions
import Alcy.Parser.Arms
import Alcy.Analyzer.Places
import Alcy.Analyzer.Reports
import Alcy.Analyzer.TupleFields
import Alcy.Analyzer.Questions
import Alcy.Analyzer.StructLiterals
import Alcy.Codegen.BranchArguments
import Alcy.Codegen.MachineTypes
import Alcy.Lexer.Literals
import Alcy.Lexer.Numbers
import Alcy.Lexer.DocComments
import Alcy.Lexer.Relex
import Alcy.Lib.Visited
import Alcy.Ir.Copies
import Alcy.Analyzer.Statics
import Alcy.Analyzer.Constructors
import Alcy.Path.Canonical
import Alcy.Lib.Worklist
import Alcy.Analyzer.BuildTree
import Alcy.Analyzer.FileModules
import Alcy.Lib.PrefixCode
import Alcy.Lib.Toml
import Alcy.Pkg.Versions
import Alcy.Pkg.Lock
import Alcy.Lib.Print
import Alcy.Lib.Lines
import Alcy.Diag.Render
import Alcy.Pkg.Positions
import Alcy.Parser.Legibility
import Alcy.Parser.TypeLists
import Alcy.Parser.Paths
import Alcy.Analyzer.Meanings
import Alcy.Analyzer.Sharing
import Alcy.Analyzer.Interning
import Alcy.Analyzer.TypeIdentity
import Alcy.Lib.Blocks
import Alcy.Lib.Assignment
import Alcy.Lib.Llvm
import Alcy.Ir.Semantics
import Alcy.Codegen.Selection
import Alcy.Codegen.Lowered
import Alcy.Lib.Stages
import Alcy.Codegen.Settled
import Alcy.Codegen.Constants
import Alcy.Codegen.Emitted
import Alcy.Codegen.Arithmetic
import Alcy.Codegen.Computing
import Alcy.Codegen.Points
import Alcy.Codegen.Preserves
import Alcy.Codegen.ModuleForm
import Alcy.Source
import Alcy.Pipeline.Discover
import Alcy.Pipeline.Project
