import GraphHom.Constraint.Relation
import GraphHom.Main
import GraphHom.StateSpace.SubsetSum
import GraphHom.StateSpace.Table
import GraphHom.Proofs.Constraint.Index
import GraphHom.Proofs.Constraint.Search
import GraphHom.Proofs.Constraint.Assignments
import GraphHom.Proofs.Constraint.First
import GraphHom.Proofs.Constraint.Descent
import GraphHom.Proofs.Constraint.Selecting
import GraphHom.Proofs.Constraint.Rearranging
import GraphHom.Proofs.Constraint.Mirrors
import GraphHom.Proofs.Matching.Listing
import GraphHom.Proofs.Matching.Candidates
import GraphHom.Proofs.Matching.Solving
import GraphHom.Proofs.Repetition
import GraphHom.Proofs.StateSpace.Walk
import GraphHom.Proofs.StateSpace.First
import GraphHom.Proofs.StateSpace.Frontier
import GraphHom.Proofs.StateSpace.Keys
import GraphHom.Proofs.StateSpace.Memory
import GraphHom.Proofs.StateSpace.Reach
import GraphHom.Proofs.StateSpace.Session
import GraphHom.Proofs.StateSpace.Stack
import GraphHom.Proofs.StateSpace.Tree
import GraphHom.Proofs.Matching.Growing
import GraphHom.Proofs.Matching.Naming
import GraphHom.Proofs.Matching.First
import GraphHom.Proofs.Matching.Memory
import GraphHom.Proofs.Matching.Phases
import GraphHom.Proofs.Matching.Reached
import GraphHom.Proofs.Matching.Injective
import GraphHom.Proofs.Matching.Exchange
import GraphHom.Proofs.Graph.Construction
import GraphHom.Proofs.Graph.Validation
import GraphHom.Proofs.Graph.Indexing
import GraphHom.Proofs.Graph.Entries
import GraphHom.Proofs.Morphism.Pullback
import GraphHom.Proofs.Morphism.Universal
import GraphHom.Proofs.Morphism.Acceptance
import GraphHom.Proofs.Matching.Reconstruction
import GraphHom.Proofs.Matching.Typed
import GraphHom.Proofs.Matching.Span
import GraphHom.Proofs.Matching.Session
import GraphHom.Proofs.Document.Tokens
import GraphHom.Proofs.Document.Spelling
import GraphHom.Proofs.Document.Reading
import GraphHom.Proofs.Document.Peg
import GraphHom.Proofs.Document.Attempts
import GraphHom.Proofs.Document.Furthest
import GraphHom.Proofs.Document.Skipping
import GraphHom.Proofs.Document.Agreement
import GraphHom.Proofs.Document.Parse
import GraphHom.Proofs.Document.Cuts
import GraphHom.Proofs.Document.Places
import GraphHom.Proofs.Document.Lockstep
import GraphHom.Proofs.Document.Reports
import GraphHom.Proofs.Document.Viability
import GraphHom.Proofs.Document.SyntaxErrors
