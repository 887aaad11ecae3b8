import HtnPlanner.Ground.Methods

namespace HtnPlanner

structure GroundProblem where
  domainName : String
  problemName : String
  symbols : Symbols
  init : List Fact
  inertia : FactInertia
  actions : List Schema.Action
  /-- Every subtask of these is achievable. -/
  methods : List Schema.Method
  goal : Expr
  initialTasks : List GroundTask
  /-- For each initial task whether it is achievable. -/
  resolved : List Bool
  initialOrder : List (Nat × Nat)
  deriving Repr, Inhabited

/-- Replaces the facts in the precondition that never change and drops the effects on them. There is
nothing left of an action that is never applicable. -/
def Schema.Action.simplify? (fixed : Fact → Option Bool) (a : Action) : Option Action :=
  match a.precondition.assign fixed with
  | .bottom => none
  | precondition =>
    let effect := (a.effectLiterals.filter fun l => (fixed l.fact).isNone).map Expr.ofLiteral
    some { a with precondition, effect := .conj effect }

def simplifyActions (fixed : Fact → Option Bool) (actions : List Schema.Action) :
    List Schema.Action :=
  (actions.filterMap (·.simplify? fixed)).eraseDups

def GroundProblem.ofLifted (p : LiftedProblem) : GroundProblem :=
  let grounded := p.groundActions
  let inertia := FactInertia.ofActions grounded p.init
  let actions := simplifyActions inertia.fixedValue grounded
  let primitive := (actions.map (·.groundTask)).eraseDups
  let methods := prune primitive (p.groundMethods inertia.fixedValue)
  { domainName := p.domainName
    problemName := p.problemName
    symbols := p.symbols
    init := p.init
    inertia
    actions
    methods
    goal := p.groundGoal.assign inertia.fixedValue
    initialTasks := p.initialTasks
    resolved := p.initialTasks.map (isAchievable primitive methods)
    initialOrder := p.network.order }

end HtnPlanner
