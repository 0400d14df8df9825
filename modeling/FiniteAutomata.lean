import FiniteAutomata.Main
import FiniteAutomata.Proofs.Delimiter
import FiniteAutomata.Proofs.StateText
import FiniteAutomata.Proofs.Namer
import FiniteAutomata.Proofs.Automaton.CompositeName
import FiniteAutomata.Proofs.Automaton.Path
import FiniteAutomata.Proofs.Automaton.SubsetConstruction
import FiniteAutomata.Proofs.Regex.Grammar
import FiniteAutomata.Proofs.Regex.Postfix
import FiniteAutomata.Proofs.Regex.Conservation
import FiniteAutomata.Proofs.Regex.Balance
import FiniteAutomata.Proofs.Regex.Fragment
import FiniteAutomata.Proofs.Regex.Thompson
import FiniteAutomata.Proofs.Regex.Compile
import FiniteAutomata.Proofs.Regex.Wellformed
import FiniteAutomata.Proofs.Automaton.Determinism
import FiniteAutomata.Proofs.Automaton.Map
import FiniteAutomata.Proofs.Traversal
import FiniteAutomata.Proofs.Automaton.CanonicalOrder
import FiniteAutomata.Proofs.Automaton.Renaming
import FiniteAutomata.Proofs.Automaton.NameOrder
import FiniteAutomata.Proofs.Automaton.Isomorphism
import FiniteAutomata.Proofs.Automaton.Acceptance
import FiniteAutomata.Proofs.Automaton.NameIndependence
import FiniteAutomata.Proofs.Regex.TreeFragment
import FiniteAutomata.Proofs.Regex.Similar
import FiniteAutomata.Proofs.Regex.Printing
import FiniteAutomata.Proofs.Regex.CanonicalForm
import FiniteAutomata.Proofs.Regex.Rendering
import FiniteAutomata.Proofs.Automaton.DeadState
import FiniteAutomata.Proofs.Regex.SharedNamer
import FiniteAutomata.Proofs.Regex.DeadState
import FiniteAutomata.Proofs.CommandLine.Answer
import FiniteAutomata.Proofs.Automaton.History
import FiniteAutomata.Proofs.Automaton.Expansion
import FiniteAutomata.Proofs.Regex.Denotation
import FiniteAutomata.Proofs.Regex.Layout
import FiniteAutomata.Proofs.Automaton.Simulation
import FiniteAutomata.Proofs.Distance
import FiniteAutomata.Proofs.Automaton.Numbering
import FiniteAutomata.Proofs.Regex.Shape
import FiniteAutomata.Proofs.Automaton.SubsetCount
import FiniteAutomata.Proofs.Regex.Size
import FiniteAutomata.Proofs.Regex.Parentheses
import FiniteAutomata.Proofs.Automaton.Completion
import FiniteAutomata.Proofs.Regex.Failure
import FiniteAutomata.Proofs.Automaton.Walk
import FiniteAutomata.Proofs.Automaton.EpsilonClosure
import FiniteAutomata.Proofs.Automaton.Stepping
import FiniteAutomata.Proofs.Automaton.Homomorphism
import FiniteAutomata.Proofs.Automaton.Drawing
