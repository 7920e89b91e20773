import IntervalAutomata.Alphabet.Integers
import IntervalAutomata.Alphabet.Scalars
import IntervalAutomata.Alphabet.Letter
import IntervalAutomata.Interval.Relation
import IntervalAutomata.Search
import IntervalAutomata.Regex.Core
import IntervalAutomata.Regex.StateCount
import IntervalAutomata.Regex.Render
import IntervalAutomata.Nfa.Simulation
import IntervalAutomata.Operation
import IntervalAutomata.Proofs.Nfa.EdgeEdits
import IntervalAutomata.Proofs.Nfa.Slots
import IntervalAutomata.Proofs.Nfa.WellFormed
import IntervalAutomata.Proofs.Nfa.Reach
import IntervalAutomata.Proofs.Alphabet.Lawful
import IntervalAutomata.Proofs.Thompson.Block
import IntervalAutomata.Proofs.Nfa.Transitions
import IntervalAutomata.Proofs.Graph.Basic
import IntervalAutomata.Proofs.Graph.Refinement
import IntervalAutomata.Proofs.Nfa.Path
import IntervalAutomata.Proofs.Nfa.Run
import IntervalAutomata.Proofs.Span.Cover
import IntervalAutomata.Proofs.Balance
import IntervalAutomata.Proofs.Balance.Joined
import IntervalAutomata.Proofs.Regex.Language
import IntervalAutomata.Proofs.Thompson.Language
import IntervalAutomata.Proofs.Thompson.Compile
import IntervalAutomata.Proofs.Thompson.Tokens
import IntervalAutomata.Proofs.Nfa.Walk
import IntervalAutomata.Proofs.Bound.Cut
import IntervalAutomata.Proofs.Interval.Partition
import IntervalAutomata.Proofs.Regex.StateCount
import IntervalAutomata.Proofs.Thompson.Allocation
import IntervalAutomata.Proofs.Regex.Desugar
import IntervalAutomata.Proofs.Thompson.Isolation
import IntervalAutomata.Proofs.Thompson.Shape
import IntervalAutomata.Proofs.Thompson.Builder
import IntervalAutomata.Proofs.Alphabet.Scalars
import IntervalAutomata.Proofs.Alphabet.Numbered
import IntervalAutomata.Proofs.Alphabet.Integers
import IntervalAutomata.Proofs.Regex.Reading
import IntervalAutomata.Proofs.Regex.Rendering
import IntervalAutomata.Proofs.Nfa.Prune
import IntervalAutomata.Proofs.Span.NormalForm
import IntervalAutomata.Proofs.Thompson.Detached
import IntervalAutomata.Proofs.Thompson.Useful
import IntervalAutomata.Proofs.Nfa.History
import IntervalAutomata.Proofs.Regex.ClassForm
import IntervalAutomata.Proofs.Regex.Shallow
import IntervalAutomata.Proofs.Bound.Dense
import IntervalAutomata.Proofs.Bound.Inclusion
import IntervalAutomata.Proofs.Interval.Kind
import IntervalAutomata.Proofs.Interval.Values
import IntervalAutomata.Proofs.Interval.Emptiness
import IntervalAutomata.Proofs.Interval.Seams
import IntervalAutomata.Proofs.Search.Outcome
import IntervalAutomata.Proofs.Nfa.Closure
import IntervalAutomata.Proofs.Nfa.BreadthFirst
import IntervalAutomata.Proofs.Stable
import IntervalAutomata.Proofs.Nfa.EdgeOrder
import IntervalAutomata.Proofs.Nfa.Arrival
