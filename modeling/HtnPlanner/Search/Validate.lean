import HtnPlanner.Search.Plan

namespace HtnPlanner

inductive PlanFault
  | ungroundedNetwork
  | unknown (step : Nat) (operator : Operator)
  | notApplicable (step : Nat) (operator : Operator) (state : State)
  | notNext (step : Nat) (operator : Operator)
  | tasksLeft (count : Nat)
  | goalMissed (state : State)
  deriving DecidableEq, Repr

def PlanFault.message (p : EncodedProblem) : PlanFault → String
  | ungroundedNetwork => "The initial task network could not be grounded"
  | unknown step _ => "Step " ++ toString step ++ " is not an operator of the problem"
  | notApplicable step o state =>
    "Step " ++ toString step ++ " " ++ p.operatorName o ++ " is not applicable in state " ++ state.render
  | notNext step o =>
    "Step " ++ toString step ++ " " ++ p.operatorName o
      ++ " does not accomplish a task that can be processed next"
  | tasksLeft count => "Plan leaves " ++ toString count ++ " tasks unaccomplished"
  | goalMissed state => "Plan does not reach goal state, final state is: " ++ state.render

namespace EncodedProblem

variable (p : EncodedProblem)

/-- The first position of the task among those that may be worked on next. -/
def positionOf? (s : Situation) (task : Nat) : Option Nat :=
  s.network.first.find? (s.network.tasks[·]? == some task)

def replayStep (step : Nat) (s : Situation) (o : Operator) : Except PlanFault Situation :=
  match p.taskOf? o with
  | none => .error (.unknown step o)
  | some task =>
    if p.isApplicable s.state o then
      match positionOf? s task with
      | some position => .ok (p.apply s position o)
      | none => .error (.notNext step o)
    else
      .error (.notApplicable step o s.state)

def replay (step : Nat) (s : Situation) : List Operator → Except PlanFault Situation
  | [] => .ok s
  | o :: os => (p.replayStep step s o).bind fun s => replay (step + 1) s os

def checkEnd (s : Situation) : Except PlanFault Unit :=
  if !s.network.isEmpty then .error (.tasksLeft s.network.tasks.length)
  else if p.goal.holds s.state then .ok ()
  else .error (.goalMissed s.state)

/-- Replays a plan from the initial situation. Each step works on the first task that it can. -/
def validate (plan : Plan) : Except PlanFault Unit :=
  if p.isSolvable then (p.replay 0 p.initial plan.steps).bind p.checkEnd
  else .error .ungroundedNetwork

end EncodedProblem

end HtnPlanner
