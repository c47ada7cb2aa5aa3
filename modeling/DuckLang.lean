import DuckLang.Address
import DuckLang.Allocator
import DuckLang.Ascending
import DuckLang.Build
import DuckLang.CommandLine
import DuckLang.Compile
import DuckLang.Console
import DuckLang.Cube
import DuckLang.DataType
import DuckLang.Decimal.Binary64
import DuckLang.Decimal.General
import DuckLang.Decimal.Positional
import DuckLang.Decimal.Power
import DuckLang.Decimal.Reader
import DuckLang.Decimal.Shortest
import DuckLang.Diagnostic
import DuckLang.Emitter
import DuckLang.Emitter.Command
import DuckLang.Emitter.Control
import DuckLang.Emitter.Export
import DuckLang.Emitter.Expression
import DuckLang.Emitter.Function
import DuckLang.Emitter.Statement
import DuckLang.FileTree
import DuckLang.Grammar
import DuckLang.Grammar.Analysis
import DuckLang.Grammar.Automaton
import DuckLang.Grammar.Duck
import DuckLang.Grammar.Reader
import DuckLang.Grammar.Slr
import DuckLang.Identifier
import DuckLang.Llvm
import DuckLang.Llvm.Constant
import DuckLang.Llvm.Lowering
import DuckLang.Llvm.Prelude
import DuckLang.Llvm.Printer
import DuckLang.Llvm.Problem
import DuckLang.Log
import DuckLang.Machine
import DuckLang.Machine.Fault
import DuckLang.Machine.Memory
import DuckLang.Main
import DuckLang.Parser
import DuckLang.Parser.Action
import DuckLang.Parser.Attribute
import DuckLang.Program
import DuckLang.Project
import DuckLang.Project.Locate
import DuckLang.Project.Manifest
import DuckLang.Project.Starter
import DuckLang.Quad
import DuckLang.Scope
import DuckLang.Table
import DuckLang.TempPool
import DuckLang.Text.Blank
import DuckLang.Text.Layout
import DuckLang.Text.Lines
import DuckLang.Text.Markup
import DuckLang.Text.Path
import DuckLang.Text.Printable
import DuckLang.Text.Quoted
import DuckLang.Text.Split
import DuckLang.Text.Utf8
import DuckLang.Token
import DuckLang.Token.Lexer
import DuckLang.Toml
import DuckLang.Toml.Lexeme
import DuckLang.Toml.Reader
import DuckLang.Value
import DuckLang.Proofs.Ascending
import DuckLang.Proofs.Duck.Compile
import DuckLang.Proofs.Duck.Expressions
import DuckLang.Proofs.Duck.Follow
import DuckLang.Proofs.Duck.Phrases
import DuckLang.Proofs.Duck.Programs
import DuckLang.Proofs.Duck.Run
import DuckLang.Proofs.Duck.Statements
import DuckLang.Proofs.Duck.Table
import DuckLang.Proofs.Duck.Walks
import DuckLang.Proofs.Emitter.Call
import DuckLang.Proofs.Emitter.Causes
import DuckLang.Proofs.Emitter.Control
import DuckLang.Proofs.Emitter.Declaration
import DuckLang.Proofs.Emitter.Draft
import DuckLang.Proofs.Emitter.Ensures
import DuckLang.Proofs.Emitter.Expression
import DuckLang.Proofs.Emitter.Function
import DuckLang.Proofs.Emitter.Jumps
import DuckLang.Proofs.Emitter.Layout
import DuckLang.Proofs.Emitter.Names
import DuckLang.Proofs.Emitter.Program
import DuckLang.Proofs.Emitter.Statement
import DuckLang.Proofs.Grammar.Cells
import DuckLang.Proofs.Grammar.Closure
import DuckLang.Proofs.Grammar.Construction
import DuckLang.Proofs.Grammar.Derivation
import DuckLang.Proofs.Grammar.Exactness
import DuckLang.Proofs.Grammar.FirstFollow
import DuckLang.Proofs.Grammar.Proper
import DuckLang.Proofs.Grammar.Sets
import DuckLang.Proofs.Grammar.States
import DuckLang.Proofs.Grammar.Subsets
import DuckLang.Proofs.Machine.Frames
import DuckLang.Proofs.Machine.Safety
import DuckLang.Proofs.Parser.Completeness
import DuckLang.Proofs.Parser.Discipline
import DuckLang.Proofs.Parser.FirstError
import DuckLang.Proofs.Parser.Halting
import DuckLang.Proofs.Parser.Itemwise
import DuckLang.Proofs.Parser.Path
import DuckLang.Proofs.Parser.Soundness
import DuckLang.Proofs.Parser.Termination
import DuckLang.Proofs.Parser.Viable
import DuckLang.Proofs.Token.Spelling
import DuckLang.Proofs.Emitter.Temporaries
import DuckLang.Proofs.Emitter.Changes
import DuckLang.Proofs.Emitter.Storage
import DuckLang.Proofs.Duck.Types
import DuckLang.Proofs.Duck.Calls
import DuckLang.Proofs.Duck.Meaning
import DuckLang.Proofs.Parser.Integrity
import DuckLang.Proofs.Build.TableCache
import DuckLang.Proofs.Token.LongestMatch
import DuckLang.Proofs.Emitter.Custody
import DuckLang.Proofs.Emitter.Aliasing
import DuckLang.Proofs.Emitter.TempRange
import DuckLang.Proofs.Emitter.Variables
import DuckLang.Proofs.Emitter.Stretch
import DuckLang.Proofs.Emitter.Outline
import DuckLang.Proofs.Parser.Operations
import DuckLang.Proofs.Parser.Yield
import DuckLang.Proofs.Duck.Temporaries
import DuckLang.Proofs.Duck.Script
import DuckLang.Proofs.Duck.Modules
import DuckLang.Proofs.Machine.Isolation
import DuckLang.Proofs.Llvm.Steps
import DuckLang.Proofs.Llvm.Ranges
import DuckLang.Proofs.Llvm.Modules
import DuckLang.Proofs.Machine.Recording
import DuckLang.Proofs.Machine.Depth
import DuckLang.Proofs.Grammar.Resolution
import DuckLang.Proofs.Machine.Placement
import DuckLang.Proofs.Llvm.Filling
import DuckLang.Proofs.Llvm.Blocks
import DuckLang.Proofs.Llvm.WellFormed
import DuckLang.Proofs.Grammar.Reading
import DuckLang.Proofs.Grammar.RoundTrip
import DuckLang.Proofs.Grammar.Augmentation
import DuckLang.Proofs.Source.Expression
import DuckLang.Proofs.Source.ExpressionCode
import DuckLang.Proofs.Source.Operands
import DuckLang.Proofs.Source.Piece
import DuckLang.Proofs.Source.Replay
import DuckLang.Proofs.Source.ReplayRun
import DuckLang.Proofs.Duck.Headers
import DuckLang.Proofs.Token.RoundTrip
import DuckLang.Proofs.Token.Literals
import DuckLang.Proofs.Parser.ErrorLine
import DuckLang.Proofs.Emitter.Scoping
import DuckLang.Proofs.Emitter.Reuse
import DuckLang.Proofs.Emitter.Constants
import DuckLang.Proofs.Machine.Replay
import DuckLang.Proofs.Token.Words
import DuckLang.Proofs.Duck.Starter
