import Acceptor.Label
import Acceptor.Sorted
import Acceptor.Alphabet
import Acceptor.Bits
import Acceptor.IdSet
import Acceptor.IdSet.Family
import Acceptor.IdSet.Held
import Acceptor.IdSet.Registry
import Acceptor.Edges
import Acceptor.Edges.Sets
import Acceptor.Graph
import Acceptor.Graph.Names
import Acceptor.Graph.Additions
import Acceptor.Search
import Acceptor.Graph.Image
import Acceptor.Graph.Closure
import Acceptor.Kind
import Acceptor.Machine
import Acceptor.Machine.Defect
import Acceptor.Machine.Demands
import Acceptor.Machine.Acceptance
import Acceptor.Machine.Runs
import Acceptor.Machine.Coverage
import Acceptor.Machine.Elimination
import Acceptor.Machine.Determinization
import Acceptor.Machine.Accessible
import Acceptor.Machine.Part
import Acceptor.Machine.Powerset
import Acceptor.Pattern
import Acceptor.Pattern.Machine
import Acceptor.Automaton
import Acceptor.Automaton.Changes
import Acceptor.Drawing
import Acceptor.Text.WhiteSpace
import Acceptor.Text.Cut
import Acceptor.Text.Numeral
import Acceptor.Outcome
import Acceptor.FileTree.Error
import Acceptor.FileTree.Path
import Acceptor.FileTree
import Acceptor.Description.Position
import Acceptor.Description.Cursor
import Acceptor.Description.Error
import Acceptor.Description
import Acceptor.Description.Format
import Acceptor.Description.Cursor.Run
import Acceptor.Loading
import Acceptor.Report
import Acceptor.CommandLine.Arguments
import Acceptor.CommandLine.Options
import Acceptor.CommandLine.Host
import Acceptor.CommandLine.Run
import Acceptor.Main
import Acceptor.Proofs.Reading
import Acceptor.Proofs.Validation
import Acceptor.Proofs.Elimination
import Acceptor.Proofs.Coverage
import Acceptor.Proofs.Accessible
import Acceptor.Proofs.Subsets
import Acceptor.Proofs.Determinization
import Acceptor.Proofs.PatternLanguage
import Acceptor.Proofs.PatternRow
import Acceptor.Proofs.Building
import Acceptor.Proofs.Restriction
import Acceptor.Proofs.Conversions
import Acceptor.Proofs.Words
import Acceptor.Proofs.Lines
import Acceptor.Proofs.HeaderLine
import Acceptor.Proofs.Format
import Acceptor.Proofs.Loading
import Acceptor.Proofs.AccessiblePart
import Acceptor.Proofs.Quantifiers
import Acceptor.Proofs.ReachedSets
import Acceptor.Description.Culprit
import Acceptor.Proofs.AccessibleAcceptance
import Acceptor.Proofs.CursorSteps
import Acceptor.Proofs.CursorRuns
import Acceptor.Description.LineByLine
import Acceptor.Proofs.LinesAlike
import Acceptor.Proofs.LineByLine
import Acceptor.Proofs.ErrorPositions
import Acceptor.Proofs.FailFast
import Acceptor.Proofs.Layout
import Acceptor.Proofs.PatternText
import Acceptor.Machine.SameEdges
import Acceptor.Proofs.SameEdges
import Acceptor.Machine.Renamed
import Acceptor.Search.Renaming
import Acceptor.Proofs.DeterminizedTwice
import Acceptor.Machine.Normal
import Acceptor.Machine.Row
import Acceptor.Proofs.NormalForm
import Acceptor.Machine.Violations
import Acceptor.Proofs.ClosureLaws
import Acceptor.Proofs.Violations
import Acceptor.IdSet.FiniteSets
import Acceptor.Drawing.Lines
import Acceptor.Proofs.Drawing
import Acceptor.Proofs.Registry
import Acceptor.Proofs.WorstCase
import Acceptor.Proofs.CommandRuns
import Acceptor.Proofs.Conversation
