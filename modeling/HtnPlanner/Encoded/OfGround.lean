import HtnPlanner.Encoded.Problem
import HtnPlanner.Ground.Problem
import HtnPlanner.Positions

/-!
Numbers the facts and the tasks that the initial tasks lead to, and leaves out all others.
-/

namespace HtnPlanner

namespace GroundProblem

variable (p : GroundProblem)

def resolvedTasks : List GroundTask :=
  ((p.initialTasks.zip p.resolved).filter (·.2)).map (·.1)

def subtasksOf (t : GroundTask) : List GroundTask :=
  (p.methods.filter (·.groundTask? == some t)).flatMap (·.subtasks)

/-- The achievable initial tasks and what their methods decompose them into. None is found that is
neither an initial task nor a subtask of a method. -/
def relevantTasks : List GroundTask :=
  reach p.subtasksOf (p.initialTasks.length + (p.methods.flatMap (·.subtasks)).length) p.resolvedTasks

def relevantActions (tasks : List GroundTask) : List Schema.Action :=
  p.actions.filter fun a => tasks.contains a.groundTask

def relevantMethods (tasks : List GroundTask) : List Schema.Method :=
  p.methods.filter fun m => m.groundTask?.any tasks.contains

/-- The facts of the relevant actions and methods and of the goal, in order of first mention. -/
def relevantFacts (tasks : List GroundTask) : List Fact :=
  let ofActions := (p.relevantActions tasks).flatMap fun a =>
    (a.precondition.literals ++ a.effectLiterals).map (·.fact)
  let ofMethods := (p.relevantMethods tasks).flatMap fun m => m.precondition.literals.map (·.fact)
  (ofActions ++ ofMethods ++ p.goal.facts).eraseDups

end GroundProblem

namespace Encoded

def indices (facts : List Fact) (positive : Bool) (literals : List Literal) : IndexSet :=
  .ofList ((literals.filter (·.positive == positive)).filterMap fun l => facts.idxOf? l.fact)

def condition (facts : List Fact) (literals : List Literal) : Condition :=
  ⟨indices facts true literals, indices facts false literals⟩

def effect (facts : List Fact) (literals : List Literal) : Effect :=
  ⟨indices facts true literals, indices facts false literals⟩

def action (facts : List Fact) (tasks : List GroundTask) (a : Schema.Action) : Action where
  name := a.name
  args := a.args
  task := tasks.idxOf a.groundTask
  precondition := condition facts a.precondition.literals
  effect := effect facts a.effectLiterals

def method (facts : List Fact) (tasks : List GroundTask) (m : Schema.Method) : Method where
  name := m.name
  args := m.args
  task := m.groundTask?.elim 0 tasks.idxOf
  precondition := condition facts m.precondition.literals
  subtasks := m.subtasks.map tasks.idxOf
  order := m.network.closedOrder

def goal (facts : List Fact) (e : Expr) : Goal :=
  ⟨e.dnf.map fun clause => condition facts (Expr.conj clause).literals⟩

def resolvers (actions : List Action) (methods : List Method) (task : Nat) : List Nat :=
  positions (·.task == task) actions ++ positions (·.task == task) methods

/-- The initial tasks with an index, and the order between them. The order is closed first, so that
it also passes through those that have none. -/
def initialNetwork (tasks : List (Option Nat)) (order : List (Nat × Nat)) : TaskNetwork where
  tasks := tasks.filterMap id
  order := (positions (·.isNone) tasks).reverse.foldl FinRel.erase (.ofPairs tasks.length order)

end Encoded

def EncodedProblem.ofGround (p : GroundProblem) : EncodedProblem :=
  let tasks := p.relevantTasks
  let facts := p.relevantFacts tasks
  let actions := (p.relevantActions tasks).map (Encoded.action facts tasks)
  let methods := (p.relevantMethods tasks).map (Encoded.method facts tasks)
  let initialTasks := (p.initialTasks.zip p.resolved).map fun t =>
    if t.2 then tasks.idxOf? t.1 else none
  { domainName := p.domainName
    problemName := p.problemName
    symbols := p.symbols
    facts
    tasks := tasks.map fun t => ⟨t, p.symbols.isPrimitive t.symbol⟩
    actions
    methods
    resolvers := (List.range tasks.length).map (Encoded.resolvers actions methods)
    initialState := .ofList facts.length (p.init.filterMap facts.idxOf?)
    initialGroundTasks := p.initialTasks
    initialTasks
    initialNetwork := Encoded.initialNetwork initialTasks p.initialOrder
    goal := Encoded.goal facts p.goal }

end HtnPlanner
