import LanguageTheory.TotalOrd
import LanguageTheory.SortedSet
import LanguageTheory.Linked
import LanguageTheory.Counting
import LanguageTheory.SortedSet.Closure
import LanguageTheory.Numbering
import LanguageTheory.Numbering.Discovery
import LanguageTheory.Partition
import LanguageTheory.Alphabet
import LanguageTheory.Table
import LanguageTheory.Machine
import LanguageTheory.Text.CharRange
import LanguageTheory.Text.Uppercase
import LanguageTheory.Text.Printable
import LanguageTheory.Text.Quoted
import LanguageTheory.Automaton.Fault
import LanguageTheory.DFA.Basic
import LanguageTheory.DFA.Construction
import LanguageTheory.DFA.Reachable
import LanguageTheory.DFA.Distinguish
import LanguageTheory.DFA.Minimize
import LanguageTheory.NFA.Draft
import LanguageTheory.NFA.Basic
import LanguageTheory.NFA.Recognition
import LanguageTheory.NFA.Composition
import LanguageTheory.NFA.Determinize
import LanguageTheory.Regex.Basic
import LanguageTheory.Regex.Compile
import LanguageTheory.Regex.Printer
import LanguageTheory.Regex.Parser
import LanguageTheory.Grammar.Production
import LanguageTheory.Grammar.Basic
import LanguageTheory.Grammar.Derivation
import LanguageTheory.Grammar.Enumeration
import LanguageTheory.Grammar.Outline
import LanguageTheory.Grammar.Yield
import LanguageTheory.Grammar.LambdaFree
import LanguageTheory.Grammar.UnitFree
import LanguageTheory.Grammar.Useful
import LanguageTheory.Grammar.FreshNames
import LanguageTheory.Grammar.EmptyWord
import LanguageTheory.Grammar.ChomskyForm
import LanguageTheory.Grammar.Membership
import LanguageTheory.Proofs.Grammar.Yields
import LanguageTheory.Proofs.Grammar.LambdaFree
import LanguageTheory.Proofs.Grammar.UnitFree
import LanguageTheory.Proofs.Grammar.Useful
import LanguageTheory.Proofs.Grammar.FreshNames
import LanguageTheory.Proofs.Grammar.ChomskyForm
import LanguageTheory.Proofs.Grammar.Membership
import LanguageTheory.Proofs.Grammar.Decision
import LanguageTheory.Proofs.NFA.Path
import LanguageTheory.Proofs.NFA.Edges
import LanguageTheory.Proofs.NFA.Primitives
import LanguageTheory.Proofs.NFA.Composition
import LanguageTheory.Proofs.NFA.Determinize
import LanguageTheory.Proofs.NFA.Numbering
import LanguageTheory.Proofs.NFA.Recognized
import LanguageTheory.Proofs.Numbering.Discovery
import LanguageTheory.Proofs.Numbering.Ranks
import LanguageTheory.Proofs.DFA.Language
import LanguageTheory.Proofs.DFA.Collapse
import LanguageTheory.Proofs.DFA.Minimize
import LanguageTheory.Proofs.DFA.Optimal
import LanguageTheory.Proofs.DFA.Morphism
import LanguageTheory.Proofs.DFA.Numbering
import LanguageTheory.Proofs.WordOrder
import LanguageTheory.Proofs.Regex.Compile
import LanguageTheory.Proofs.Regex.Canonical
import LanguageTheory.Proofs.Regex.Notation
import LanguageTheory.Proofs.Regex.Moves
import LanguageTheory.Proofs.Regex.Reading
import LanguageTheory.Proofs.Regex.RoundTrip
import LanguageTheory.Proofs.Grammar.DerivationLength
import LanguageTheory.Proofs.Grammar.Enumeration
import LanguageTheory.Proofs.Grammar.Reversal
import LanguageTheory.Proofs.Grammar.EmptyWord
import LanguageTheory.Proofs.Grammar.Construction
import LanguageTheory.Proofs.Grammar.Transformation
import LanguageTheory.Proofs.Grammar.Idempotence
import LanguageTheory.Proofs.Grammar.CompleteDerivation
import LanguageTheory.Proofs.Flat.Checked
import LanguageTheory.Proofs.Flat.Draft
import LanguageTheory.Proofs.Flat.Composition
import LanguageTheory.Proofs.Flat.Closure
import LanguageTheory.Proofs.Flat.Recognition
import LanguageTheory.Proofs.Flat.DFA
import LanguageTheory.Proofs.Flat.Overflow
import LanguageTheory.Proofs.Flat.Construction
import LanguageTheory.Proofs.Flat.Minimize
import LanguageTheory.Proofs.DFA.TableFilling
import LanguageTheory.Proofs.Flat.Reachable
import LanguageTheory.Proofs.Numbering.Queue
import LanguageTheory.Proofs.Flat.Determinize
import LanguageTheory.Proofs.Flat.Run
import LanguageTheory.Proofs.DFA.Quotient
import LanguageTheory.Proofs.DFA.LeastWord
import LanguageTheory.Proofs.NFA.SubsetAutomaton
import LanguageTheory.Proofs.Regex.Parentheses
import LanguageTheory.Proofs.Regex.Faults
import LanguageTheory.Proofs.Regex.Descent
import LanguageTheory.Proofs.DFA.Minimality
import LanguageTheory.Proofs.Automaton.FirstFault
import LanguageTheory.Proofs.DFA.Construction
import LanguageTheory.Proofs.DFA.Trap
import LanguageTheory.Proofs.Grammar.NameDemand
import LanguageTheory.Proofs.NFA.PathRecognition
import LanguageTheory.Grammar.Conversion
import LanguageTheory.Proofs.Grammar.Conversion
import LanguageTheory.Proofs.NFA.Construction
import LanguageTheory.Proofs.NFA.Copy
import LanguageTheory.Proofs.Flat.Editing
import LanguageTheory.Proofs.Regex.OperatorMarkers
import LanguageTheory.Proofs.Grammar.Outline
import LanguageTheory.Proofs.DFA.Passes
import LanguageTheory.Proofs.Flat.StackSearch
import LanguageTheory.Proofs.Grammar.NameCursor
import LanguageTheory.Proofs.Grammar.Vanishing
import LanguageTheory.Proofs.NFA.EpsilonClosure
import LanguageTheory.Proofs.Flat.Rows
import LanguageTheory.Proofs.Alphabet
import LanguageTheory.Proofs.Flat.Membership
import LanguageTheory.Proofs.Flat.Enumeration
