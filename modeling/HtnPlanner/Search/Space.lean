import HtnPlanner.Search.Plan
import Std.Data.TreeMap

namespace HtnPlanner

/-- A situation with the node and the operator that it was first reached by. The root has none. -/
structure Node where
  situation : Situation
  origin : Option (Nat × Operator) := none
  deriving DecidableEq, Repr, Inhabited

/-- The nodes in order of discovery, no two of one situation. They are looked up by a hash of the
situation, which may be any function. -/
structure SearchSpace where
  hash : Situation → Nat
  nodes : Array Node := #[]
  buckets : Std.TreeMap Nat (List Nat) := ∅

namespace SearchSpace

def bucket (space : SearchSpace) (s : Situation) : List Nat := space.buckets.getD (space.hash s) []

def find? (space : SearchSpace) (s : Situation) : Option Nat :=
  (space.bucket s).find? fun id => space.nodes[id]?.any (·.situation == s)

def push (space : SearchSpace) (n : Node) : SearchSpace :=
  { space with
    buckets := space.buckets.insert (space.hash n.situation)
      (space.bucket n.situation ++ [space.nodes.size])
    nodes := space.nodes.push n }

/-- The id of the node with the same situation, after storing the node if there is none, and whether
it is new. -/
def insert (space : SearchSpace) (n : Node) : (Nat × Bool) × SearchSpace :=
  match space.find? n.situation with
  | some id => ((id, false), space)
  | none => ((space.nodes.size, true), space.push n)

def new (hash : Situation → Nat) (root : Situation) : SearchSpace :=
  ({ hash : SearchSpace }.insert { situation := root }).2

/-- The operators from the root to a node, put in front of `steps`. -/
def stepsTo? (space : SearchSpace) : Nat → Nat → List Operator → Option (List Operator)
  | 0, _, _ => none
  | fuel + 1, id, steps => do
    match (← space.nodes[id]?).origin with
    | none => some steps
    | some (parent, o) => stepsTo? space fuel parent (o :: steps)

/-- The plan that leads to a node. On a way that does not end every node would come up again. -/
def planTo? (space : SearchSpace) (id : Nat) : Option Plan :=
  (space.stepsTo? space.nodes.size id []).map (⟨·⟩)

def planTo (space : SearchSpace) (id : Nat) : Plan := (space.planTo? id).getD {}

def situation (space : SearchSpace) (id : Nat) : Situation :=
  (space.nodes[id]?.map (·.situation)).getD default

end SearchSpace

namespace Situation

def mix (h n : Nat) : Nat := (h * 31 + n) % 18446744073709551557

def hash (s : Situation) : Nat :=
  (s.network.tasks ++ s.network.order.rows.map (·.bits)).foldl mix s.state.facts.bits

end Situation

end HtnPlanner
