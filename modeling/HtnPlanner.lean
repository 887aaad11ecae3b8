import HtnPlanner.IndexSet
import HtnPlanner.FinRel
import HtnPlanner.Fact
import HtnPlanner.Expr.Basic
import HtnPlanner.Expr.Simplify
import HtnPlanner.Expr.NormalForm
import HtnPlanner.Json.Reader
import HtnPlanner.Definition.Encode
import HtnPlanner.Definition.Decode
import HtnPlanner.Symbols.Checked
import HtnPlanner.Lifted.Naming
import HtnPlanner.Grounding
import HtnPlanner.Search.Validate
import HtnPlanner.Search.Engine
import HtnPlanner.Main
import HtnPlanner.Proofs.Definition.Meaning
import HtnPlanner.Proofs.Definition.Renaming
import HtnPlanner.Proofs.Definition.RoundTrip
import HtnPlanner.Proofs.Encoded.Faithful
import HtnPlanner.Proofs.Encoded.Indices
import HtnPlanner.Proofs.Encoded.Inheritance
import HtnPlanner.Proofs.Encoded.Network
import HtnPlanner.Proofs.Encoded.Redundancy
import HtnPlanner.Proofs.Encoded.Relevance
import HtnPlanner.Proofs.Encoded.Restriction
import HtnPlanner.Proofs.Encoded.Simulation
import HtnPlanner.Proofs.Encoded.Situations
import HtnPlanner.Proofs.Encoded.State
import HtnPlanner.Proofs.Encoded.TotalOrder
import HtnPlanner.Proofs.Encoded.UpToOrder
import HtnPlanner.Proofs.Encoded.Validation
import HtnPlanner.Proofs.Expr.Clauses
import HtnPlanner.Proofs.Expr.Literals
import HtnPlanner.Proofs.Expr.Meaning
import HtnPlanner.Proofs.Expr.Shape
import HtnPlanner.Proofs.Ground.Binder
import HtnPlanner.Proofs.Ground.Bindings
import HtnPlanner.Proofs.Ground.Decomposition
import HtnPlanner.Proofs.Ground.Enumeration
import HtnPlanner.Proofs.Ground.Exhaustive
import HtnPlanner.Proofs.Ground.FactTable
import HtnPlanner.Proofs.Ground.Inertia
import HtnPlanner.Proofs.Ground.InitialFacts
import HtnPlanner.Proofs.Ground.Instances
import HtnPlanner.Proofs.Ground.Invariance
import HtnPlanner.Proofs.Ground.Prune
import HtnPlanner.Proofs.Ground.Simulation
import HtnPlanner.Proofs.Ground.Tasks
import HtnPlanner.Proofs.Ground.Transitions
import HtnPlanner.Proofs.Ground.Unify
import HtnPlanner.Proofs.Grounding
import HtnPlanner.Proofs.Json.Spelling
import HtnPlanner.Proofs.Lifted.Acceptance
import HtnPlanner.Proofs.Lifted.Chain
import HtnPlanner.Proofs.Lifted.Declarations
import HtnPlanner.Proofs.Lifted.Defects
import HtnPlanner.Proofs.Lifted.Meaning
import HtnPlanner.Proofs.Lifted.Naming
import HtnPlanner.Proofs.Lifted.Renaming
import HtnPlanner.Proofs.Lifted.Run
import HtnPlanner.Proofs.Lifted.WellFormed
import HtnPlanner.Proofs.Lookup.Actions
import HtnPlanner.Proofs.Lookup.Basic
import HtnPlanner.Proofs.Lookup.Binder
import HtnPlanner.Proofs.Lookup.Collected
import HtnPlanner.Proofs.Lookup.Encoded
import HtnPlanner.Proofs.Lookup.Grounding
import HtnPlanner.Proofs.Lookup.Methods
import HtnPlanner.Proofs.Lookup.Naming
import HtnPlanner.Proofs.Lookup.Occurrences
import HtnPlanner.Proofs.Lookup.Registry
import HtnPlanner.Proofs.Lookup.Search
import HtnPlanner.Proofs.Lookup.Successors
import HtnPlanner.Proofs.Lookup.Symbols
import HtnPlanner.Proofs.Lookup.Validation
import HtnPlanner.Proofs.Order.Acyclic
import HtnPlanner.Proofs.Order.Closure
import HtnPlanner.Proofs.Order.Least
import HtnPlanner.Proofs.Order.Reach
import HtnPlanner.Proofs.Order.Schedule
import HtnPlanner.Proofs.Order.Splice
import HtnPlanner.Proofs.Search.Answers
import HtnPlanner.Proofs.Search.Arena
import HtnPlanner.Proofs.Search.Counters
import HtnPlanner.Proofs.Search.Distance
import HtnPlanner.Proofs.Search.Growth
import HtnPlanner.Proofs.Search.Limits
import HtnPlanner.Proofs.Search.Lineage
import HtnPlanner.Proofs.Search.Progress
import HtnPlanner.Proofs.Search.Replay
import HtnPlanner.Proofs.Search.Run
import HtnPlanner.Proofs.Search.Shortest
import HtnPlanner.Proofs.Search.Space
import HtnPlanner.Proofs.Symbols.Declarations
import HtnPlanner.Proofs.Symbols.Domains
import HtnPlanner.Proofs.Symbols.Hierarchy
import HtnPlanner.Proofs.Symbols.History
import HtnPlanner.Proofs.Symbols.Permanence
import HtnPlanner.Proofs.Symbols.Representation
import HtnPlanner.Proofs.Symbols.Stability
import HtnPlanner.Proofs.Symbols.Tables
import HtnPlanner.Proofs.Symbols.Unions
import HtnPlanner.Proofs.Symbols.Walks
import HtnPlanner.Proofs.Expr.Connective
import HtnPlanner.Proofs.Ground.SelfSupport
import HtnPlanner.Proofs.Expr.Folding
import HtnPlanner.Proofs.Expr.Repetition
import HtnPlanner.Proofs.Expr.Variants
