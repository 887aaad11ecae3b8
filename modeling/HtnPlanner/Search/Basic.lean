import HtnPlanner.Encoded.Problem

/-!
Forward search through situations: any task without a predecessor may be worked on next. A primitive
task is accomplished by an action and leaves the network, a compound task gives way to the subtasks of
a method.
-/

namespace HtnPlanner

inductive Operator
  | action (i : Nat)
  | method (i : Nat)
  deriving DecidableEq, Repr, Inhabited

def Operator.isAction : Operator → Bool
  | .action _ => true
  | .method _ => false

structure Situation where
  state : State
  network : TaskNetwork
  deriving DecidableEq, Repr, Inhabited

structure Successor where
  operator : Operator
  situation : Situation
  deriving DecidableEq, Repr, Inhabited

namespace EncodedProblem

variable (p : EncodedProblem)

def initial : Situation := ⟨p.initialState, p.initialNetwork⟩

def isGoal (s : Situation) : Bool := s.network.isEmpty && p.goal.holds s.state

/-- The task that the operator accomplishes or decomposes. -/
def taskOf? : Operator → Option Nat
  | .action i => p.actions[i]?.map (·.task)
  | .method i => p.methods[i]?.map (·.task)

def knows (o : Operator) : Bool := (p.taskOf? o).isSome

def isApplicable (s : State) : Operator → Bool
  | .action i => p.actions[i]?.any (·.isApplicable s)
  | .method i => p.methods[i]?.any (·.isApplicable s)

/-- Uses an operator on the task at a position of the network. -/
def apply (s : Situation) (position : Nat) : Operator → Situation
  | .action i => p.actions[i]?.elim s fun a => ⟨a.effect.apply s.state, s.network.remove position⟩
  | .method i => p.methods[i]?.elim s fun m =>
    { s with network := s.network.decompose position m.subtasks m.order }

def operatorName : Operator → String
  | .action i => p.actions[i]?.elim "" p.actionName
  | .method i => p.methods[i]?.elim "" p.methodName

def isPrimitive (task : Nat) : Bool := p.tasks[task]?.any (·.primitive)

def operatorsFor (task : Nat) : List Operator :=
  (p.resolversOf task).map (if p.isPrimitive task then .action else .method)

def successorsAt (s : Situation) (position : Nat) : List Successor :=
  let operators := s.network.tasks[position]?.elim [] p.operatorsFor
  (operators.filter (p.isApplicable s.state)).map fun o => ⟨o, p.apply s position o⟩

def successors (s : Situation) : List Successor := s.network.first.flatMap (p.successorsAt s)

/-- `successors`, when the problem has the tasks that may be worked on next. -/
def successors? (s : Situation) : Option (List Successor) :=
  if s.network.first.all fun i => s.network.tasks[i]?.any (· < p.tasks.length) then
    some (p.successors s)
  else
    none

end EncodedProblem

end HtnPlanner
