import LineSearch.Alphabet
import LineSearch.Automaton.Basic
import LineSearch.Automaton.Closure
import LineSearch.Automaton.Combinators
import LineSearch.Automaton.Duplicate
import LineSearch.Automaton.Elimination
import LineSearch.Automaton.Graph
import LineSearch.Automaton.Session
import LineSearch.Automaton.Simulation
import LineSearch.Automaton.Workshop
import LineSearch.CommandLine.Arguments
import LineSearch.CommandLine.Parameter
import LineSearch.CommandLine.Program
import LineSearch.CommandLine.Usage
import LineSearch.Compile
import LineSearch.Index
import LineSearch.Log
import LineSearch.Main
import LineSearch.Merge
import LineSearch.Pattern
import LineSearch.Proofs.Automaton.Closure
import LineSearch.Proofs.Automaton.Combinators
import LineSearch.Proofs.Automaton.Elimination
import LineSearch.Proofs.Automaton.Paths
import LineSearch.Search.Files
import LineSearch.Search.Input
import LineSearch.Search.Sources
import LineSearch.Search.Writer
import LineSearch.Syntax.Error
import LineSearch.Syntax.Lexer
import LineSearch.Syntax.Parser
import LineSearch.Syntax.Printer
import LineSearch.Syntax.Token
import LineSearch.Syntax.Tree
import LineSearch.Text.ControlSequences
import LineSearch.Text.Invisible
import LineSearch.Text.Lines
import LineSearch.Text.Quoted
import LineSearch.Text.Similarity
import LineSearch.Text.Style
import LineSearch.Text.Utf8
import LineSearch.Proofs.Automaton.Graph
import LineSearch.Proofs.Automaton.Languages
import LineSearch.Proofs.Automaton.Laws
import LineSearch.Proofs.Automaton.SeedClosure
import LineSearch.Proofs.Automaton.Sharing
import LineSearch.Proofs.Automaton.Trails
import LineSearch.Proofs.Automaton.Ownership
import LineSearch.Proofs.Compile.Recursion
import LineSearch.Proofs.Compile.Valuation
import LineSearch.Proofs.Compile.Language
import LineSearch.Proofs.Automaton.Renaming
import LineSearch.Proofs.Occurrence
import LineSearch.Proofs.Syntax.Grammar
import LineSearch.Proofs.Syntax.Scan
import LineSearch.Proofs.Syntax.Descent
import LineSearch.Proofs.Syntax.Parsing
import LineSearch.Proofs.Rejection
import LineSearch.Proofs.Automaton.Session
import LineSearch.Proofs.Automaton.Edges
import LineSearch.Proofs.Compile.FlatTree
import LineSearch.Proofs.Compile.PositionAutomaton
import LineSearch.Proofs.Automaton.Histories
import LineSearch.Proofs.Compile.Numbering
import LineSearch.Proofs.Reparsing
import LineSearch.Proofs.Text.Lines
import LineSearch.Proofs.Search.Writer
import LineSearch.Proofs.Search.Output
import LineSearch.Proofs.Search.Sources
import LineSearch.Proofs.Automaton.Passes
import LineSearch.Proofs.Syntax.Nesting
import LineSearch.Proofs.Syntax.Calls
import LineSearch.Proofs.Text.Utf8
import LineSearch.Proofs.Text.EncodedLines
import LineSearch.Proofs.Search.Counting
import LineSearch.Proofs.Search.EncodedText
import LineSearch.Proofs.Search.Fidelity
import LineSearch.Proofs.Automaton.Spending
import LineSearch.Proofs.Compile.Size
import LineSearch.Proofs.Automaton.Copies
import LineSearch.Proofs.SearchSize
import LineSearch.Proofs.Log
import LineSearch.Proofs.Syntax.Outline
import LineSearch.Proofs.Automaton.Chains
