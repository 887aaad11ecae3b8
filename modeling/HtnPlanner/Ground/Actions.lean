import HtnPlanner.Expr.NormalForm
import HtnPlanner.Ground.Binder
import HtnPlanner.Lifted.Basic

/-!
The ground actions of a lifted problem, and its goal in view of what never changes.
-/

namespace HtnPlanner

namespace LiftedProblem

def inertia (p : LiftedProblem) : PredicateInertia := .ofActions p.symbols.predicates.size p.actions

def tables (p : LiftedProblem) : List FactTable :=
  p.symbols.predicates.entries.mapIdx fun i e =>
    FactTable.ofList e.2.length ((p.init.filter (·.predicate == i)).map (·.args))

def fixedValue (p : LiftedProblem) : Fact → Option Bool :=
  let inertia := p.inertia
  inertia.fixedValue p.init

def binder (p : LiftedProblem) (fixed : Fact → Option Bool) : Binder :=
  let inertia := p.inertia
  let tables := p.tables
  { domain := p.symbols.domain
    table := fun i => tables.getD i default
    closed := inertia.isClosed
    fixed }

end LiftedProblem

/-- The instance for a binding, unless its precondition is known to be false. -/
def Schema.Action.ground? (fixed : Fact → Option Bool) (a : Action) (binding : List Nat) :
    Option Action :=
  let a := a.instantiate binding
  match a.precondition.assign fixed with
  | .bottom => none
  | precondition => some { a with precondition }

def Binder.actionInstances (b : Binder) (a : Schema.Action) : List Schema.Action :=
  let unbound := List.replicate a.parameters.length none
  (b.bindings a.parameters a.precondition unbound).filterMap (a.ground? b.fixed)

def Binder.groundAction (b : Binder) (a : Schema.Action) : List Schema.Action :=
  a.precondition.variants.flatMap fun precondition => b.actionInstances { a with precondition }

namespace LiftedProblem

def groundActions (p : LiftedProblem) : List Schema.Action :=
  let b := p.binder p.fixedValue
  (p.actions.flatMap b.groundAction).eraseDups

def groundGoal (p : LiftedProblem) : Expr := p.goal.assign p.fixedValue

end LiftedProblem

end HtnPlanner
