import HtnPlanner.Encoded.State
import HtnPlanner.Encoded.TaskNetwork
import HtnPlanner.Error
import HtnPlanner.Symbols.Basic

/-!
The problem that is searched: facts, tasks, actions and methods by their indices.
-/

namespace HtnPlanner

namespace Encoded

structure Task where
  ground : GroundTask
  primitive : Bool
  deriving DecidableEq, Repr, Inhabited

structure Action where
  name : String
  args : List Nat
  task : Nat
  precondition : Condition
  effect : Effect
  deriving DecidableEq, Repr, Inhabited

structure Method where
  name : String
  args : List Nat
  task : Nat
  precondition : Condition
  subtasks : List Nat
  order : FinRel
  deriving DecidableEq, Repr, Inhabited

def Action.isApplicable (a : Action) (s : State) : Bool := a.precondition.holds s

def Method.isApplicable (m : Method) (s : State) : Bool := m.precondition.holds s

end Encoded

structure EncodedProblem where
  domainName : String
  problemName : String
  symbols : Symbols
  facts : List Fact
  tasks : List Encoded.Task
  actions : List Encoded.Action
  methods : List Encoded.Method
  /-- For each task the actions that accomplish it or the methods that decompose it. -/
  resolvers : List (List Nat)
  initialState : State
  /-- The tasks of the initial network as they were given. -/
  initialGroundTasks : List GroundTask
  /-- The index of each of them, if it is achievable. -/
  initialTasks : List (Option Nat)
  /-- The achievable ones with their order. -/
  initialNetwork : TaskNetwork
  goal : Goal
  deriving Repr, Inhabited

namespace EncodedProblem

variable (p : EncodedProblem)

def taskIndex? (t : GroundTask) : Option Nat := p.tasks.findIdx? (·.ground == t)

def factIndex? (f : Fact) : Option Nat := p.facts.idxOf? f

def resolversOf (task : Nat) : List Nat := p.resolvers.getD task []

/-- Every initial task is achievable. There may be no plan even so. -/
def isSolvable : Bool := p.initialTasks.all (·.isSome)

def isTotal : Bool := p.methods.all (·.order.isTotal) && p.initialNetwork.isTotal

/-- The first reason that there is no plan, if one is known before the search. -/
def unsolvable? : Option Unsolvable :=
  match p.initialTasks.findIdx? (·.isNone) with
  | some position =>
    some (.ungroundableTask position (p.symbols.renderTask (p.initialGroundTasks.getD position default)))
  | none => if p.goal.isFalse then some .falseGoal else none

def actionName (a : Encoded.Action) : String := p.symbols.render a.name a.args

def methodName (m : Encoded.Method) : String := p.symbols.render m.name m.args

end EncodedProblem

end HtnPlanner
