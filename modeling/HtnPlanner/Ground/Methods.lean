import HtnPlanner.Ground.Actions
import HtnPlanner.Reach

/-!
The ground methods of the tasks that can come up when the initial tasks are decomposed.
-/

namespace HtnPlanner

/-- Adds to a partial binding that an argument stands for a constant. -/
def Symbols.bindArg (s : Symbols) (parameters : List Nat) (binding : List (Option Nat)) :
    Arg × Nat → Option (List (Option Nat))
  | (.const c, value) => if c = value then some binding else none
  | (.slot i, value) =>
    match binding[i]?.join with
    | some bound => if bound = value then some binding else none
    | none =>
      if parameters[i]?.any (s.isOfType value) then some (binding.set i (some value)) else none

/-- The least binding of a method's parameters with which it decomposes the task. -/
def Symbols.unify? (s : Symbols) (m : Schema.Method) (t : GroundTask) : Option (List (Option Nat)) :=
  (m.task.args.zip t.args).foldlM (s.bindArg m.parameters) (List.replicate m.parameters.length none)

def Schema.Method.ground? (fixed : Fact → Option Bool) (m : Method) (binding : List Nat) :
    Option Method :=
  let m := m.instantiate binding
  match m.precondition.assign fixed with
  | .bottom => none
  | precondition => some { m with precondition }

/-- The instances for a task of a method whose precondition is one conjunction. -/
def Binder.methodInstances (b : Binder) (s : Symbols) (t : GroundTask) (m : Schema.Method) :
    List Schema.Method :=
  match s.unify? m t with
  | some binding => (b.bindings m.parameters m.precondition binding).filterMap (m.ground? b.fixed)
  | none => []

def Binder.groundMethod (b : Binder) (s : Symbols) (t : GroundTask) (m : Schema.Method) :
    List Schema.Method :=
  m.precondition.variants.flatMap fun precondition => b.methodInstances s t { m with precondition }

def Binder.methodsOf (b : Binder) (s : Symbols) (methods : List Schema.Method) (t : GroundTask) :
    List Schema.Method :=
  (methods.filter (·.task.symbol == t.symbol)).flatMap (b.groundMethod s t)

namespace Symbols

def compound (s : Symbols) (tasks : List GroundTask) : List GroundTask :=
  tasks.filter fun t => !s.isPrimitive t.symbol

def groundTaskCount (s : Symbols) : Nat :=
  (s.tasks.entries.map fun e => s.constants.size.pow e.2.parameters.length).foldr (· + ·) 0

end Symbols

namespace LiftedProblem

def initialTasks (p : LiftedProblem) : List GroundTask := p.network.tasks.filterMap TaskRef.ground?

/-- The compound tasks that come up in decomposing the initial tasks, breadth first. -/
def compoundTasks (p : LiftedProblem) (b : Binder) : List GroundTask :=
  reach (fun t => p.symbols.compound ((b.methodsOf p.symbols p.methods t).flatMap (·.subtasks)))
    p.symbols.groundTaskCount (p.symbols.compound p.initialTasks)

def groundMethods (p : LiftedProblem) (fixed : Fact → Option Bool) : List Schema.Method :=
  let b := p.binder fixed
  ((p.compoundTasks b).flatMap (b.methodsOf p.symbols p.methods)).eraseDups

end LiftedProblem

def isAchievable (primitive : List GroundTask) (methods : List Schema.Method) (t : GroundTask) : Bool :=
  primitive.contains t || methods.any (·.groundTask? == some t)

def supported (primitive : List GroundTask) (methods : List Schema.Method) : List Schema.Method :=
  methods.filter fun m => m.subtasks.all (isAchievable primitive methods)

def pruneRounds (primitive : List GroundTask) : Nat → List Schema.Method → List Schema.Method
  | 0, methods => methods
  | rounds + 1, methods =>
    let kept := supported primitive methods
    if kept.length = methods.length then methods else pruneRounds primitive rounds kept

/-- Drops methods with a subtask that is not achievable until there are none. A round that is not the
last drops one method or more. -/
def prune (primitive : List GroundTask) (methods : List Schema.Method) : List Schema.Method :=
  pruneRounds primitive methods.length methods

end HtnPlanner
