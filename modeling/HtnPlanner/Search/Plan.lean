import HtnPlanner.Search.Basic

namespace HtnPlanner

/-- The operators on the way to a goal: the actions to execute, each after the methods that brought
it up. -/
structure Plan where
  steps : List Operator := []
  deriving DecidableEq, Repr, Inhabited

namespace Plan

def actions (plan : Plan) : List Nat :=
  plan.steps.filterMap fun
    | .action i => some i
    | .method _ => none

def lines (p : EncodedProblem) (steps : List Operator) : String :=
  "\n".intercalate (steps.map p.operatorName)

def text (plan : Plan) (p : EncodedProblem) : String := lines p (plan.actions.map .action)

def decomposition (plan : Plan) (p : EncodedProblem) : String := lines p plan.steps

end Plan

end HtnPlanner
