import HtnPlanner.Expr.Basic
import HtnPlanner.FinRel

/-!
Actions, methods and task networks over symbol ids. A schema has parameters, given by their types; an
instance of it also has the constants that they are bound to.
-/

namespace HtnPlanner.Schema

/-- Tasks, and pairs of positions of which the first precedes the second. -/
structure Network where
  tasks : List TaskRef := []
  order : List (Nat × Nat) := []
  deriving DecidableEq, Repr, Inhabited

namespace Network

def subst (binding : List Nat) (n : Network) : Network := ⟨n.tasks.map (·.subst binding), n.order⟩

def closedOrder (n : Network) : FinRel := .ofPairs n.tasks.length n.order

def isTotal (n : Network) : Bool := n.closedOrder.isTotal

def addTask (n : Network) (t : TaskRef) : Network := { n with tasks := n.tasks ++ [t] }

def addOrder (n : Network) (before after : Nat) : Network :=
  { n with order := n.order ++ [(before, after)] }

/-- The tasks, if none of them mentions a slot. -/
def groundTasks? (n : Network) : Option (List GroundTask) := n.tasks.mapM TaskRef.ground?

def groundTasks (n : Network) : List GroundTask := n.groundTasks?.getD []

end Network

structure Action where
  name : String
  task : Nat
  parameters : List Nat
  args : List Nat := []
  precondition : Expr
  effect : Expr
  deriving DecidableEq, Repr, Inhabited

namespace Action

def isGround (a : Action) : Bool := a.args.length == a.parameters.length

def instantiate (a : Action) (binding : List Nat) : Action :=
  { a with
    args := binding
    precondition := a.precondition.subst binding
    effect := a.effect.subst binding }

def slots (a : Action) : List Nat := a.precondition.slots ++ a.effect.slots

/-- `instantiate`, when the binding has a value for every slot. -/
def instantiate? (a : Action) (binding : List Nat) : Option Action :=
  if a.slots.all (· < binding.length) then some (a.instantiate binding) else none

def groundTask (a : Action) : GroundTask := ⟨a.task, a.args⟩

def effectLiterals (a : Action) : List Literal := a.effect.literals

end Action

structure Method where
  name : String
  parameters : List Nat
  args : List Nat := []
  task : TaskRef
  precondition : Expr
  network : Network
  deriving DecidableEq, Repr, Inhabited

namespace Method

def isGround (m : Method) : Bool := m.args.length == m.parameters.length

def instantiate (m : Method) (binding : List Nat) : Method :=
  { m with
    args := binding
    task := m.task.subst binding
    precondition := m.precondition.subst binding
    network := m.network.subst binding }

def groundTask? (m : Method) : Option GroundTask := m.task.ground?

def subtasks (m : Method) : List GroundTask := m.network.groundTasks

def slots (m : Method) : List Nat :=
  m.task.slots ++ m.precondition.slots ++ m.network.tasks.flatMap TaskRef.slots

/-- `instantiate`, when the binding has a value for every slot. -/
def instantiate? (m : Method) (binding : List Nat) : Option Method :=
  if m.slots.all (· < binding.length) then some (m.instantiate binding) else none

end Method

end HtnPlanner.Schema
