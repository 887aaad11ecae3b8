import HtnPlanner.FinRel
import HtnPlanner.Ground.Methods
import HtnPlanner.Proofs.Expr.Literals
import Mathlib.Logic.Relation

/-!
What it means to work off the tasks of a lifted problem, by bindings of its actions and methods and
sets of facts, with no regard to how the problem is grounded.
-/

namespace HtnPlanner

open Relation

/-- Ground tasks, and which position comes before which. -/
structure OrderedTasks where
  tasks : List GroundTask
  before : Nat → Nat → Prop

namespace OrderedTasks

/-- No task comes before the one at the position. -/
def Next (n : OrderedTasks) (position : Nat) : Prop := ∀ j < n.tasks.length, ¬ n.before j position

def remove (n : OrderedTasks) (position : Nat) : OrderedTasks :=
  ⟨n.tasks.eraseIdx position, fun i j => n.before (FinRel.skip position i) (FinRel.skip position j)⟩

/-- The order when tasks that are ordered by `inner` are put in the place of one of `count` tasks. Each
has the predecessors and the successors of that one. -/
def inherited (before inner : Nat → Nat → Prop) (count position i j : Nat) : Prop :=
  let kept := count - 1
  match decide (i < kept), decide (j < kept) with
  | true, true => before (FinRel.skip position i) (FinRel.skip position j)
  | true, false => before (FinRel.skip position i) position
  | false, true => before position (FinRel.skip position j)
  | false, false => inner (i - kept) (j - kept)

def replace (n : OrderedTasks) (position : Nat) (subtasks : List GroundTask) (inner : Nat → Nat → Prop) :
    OrderedTasks :=
  ⟨n.tasks.eraseIdx position ++ subtasks, inherited n.before inner n.tasks.length position⟩

end OrderedTasks

/-- The facts that are true, and the tasks that are left. -/
structure World where
  facts : Set Fact
  network : OrderedTasks

/-- The action or the method that is used, and the constants for its parameters. -/
inductive Label
  | action (name : String) (args : List Nat)
  | method (name : String) (args : List Nat)
  deriving DecidableEq, Repr

namespace Schema

/-- The facts that an instance of the action makes true. -/
def Action.adds (a : Action) (b : List Nat) : Set Fact :=
  {f | ∃ x : Atom, .atom x ∈ a.effect.conjuncts ∧ (x.subst b).fact? = some f}

def Action.deletes (a : Action) (b : List Nat) : Set Fact :=
  {f | ∃ x : Atom, .neg (.atom x) ∈ a.effect.conjuncts ∧ (x.subst b).fact? = some f}

/-- The transitive closure of the declared order. -/
def Network.Before (n : Network) : Nat → Nat → Prop := TransGen fun i j => (i, j) ∈ n.order

end Schema

namespace LiftedProblem

variable (p : LiftedProblem)

/-- Each of the constants is of the type of its parameter. -/
def Accepts (parameters args : List Nat) : Prop :=
  List.Forall₂ (fun type c => c ∈ p.symbols.domain type) parameters args

inductive Step : World → Label → World → Prop
  /-- A primitive task is accomplished by an action and leaves the network. -/
  | action {w : World} {position : Nat} {t : GroundTask} {a : Schema.Action}
      (next : w.network.Next position) (task : w.network.tasks[position]? = some t)
      (primitive : p.symbols.isPrimitive t.symbol = true)
      (known : a ∈ p.actions) (symbol : a.task = t.symbol) (accepts : p.Accepts a.parameters t.args)
      (applicable : a.precondition.Holds t.args w.facts) :
      Step w (.action a.name t.args)
        ⟨(w.facts \ a.deletes t.args) ∪ a.adds t.args, w.network.remove position⟩
  /-- A compound task gives way to the subtasks of a method. -/
  | method {w : World} {position : Nat} {t : GroundTask} {m : Schema.Method} {b : List Nat}
      {subtasks : List GroundTask}
      (next : w.network.Next position) (task : w.network.tasks[position]? = some t)
      (compound : p.symbols.isPrimitive t.symbol = false)
      (known : m ∈ p.methods) (accepts : p.Accepts m.parameters b)
      (decomposes : (m.task.subst b).ground? = some t) (applicable : m.precondition.Holds b w.facts)
      (instances : (m.network.subst b).groundTasks? = some subtasks) :
      Step w (.method m.name b)
        { w with network := w.network.replace position subtasks m.network.Before }

def initialWorld : World := ⟨{f | f ∈ p.init}, ⟨p.initialTasks, p.network.Before⟩⟩

end LiftedProblem

/-- The steps of an operator system, one after the other. -/
inductive WorldRun (step : World → Label → World → Prop) : World → List Label → World → Prop
  | nil (w : World) : WorldRun step w [] w
  | cons {u v w : World} {l : Label} {ls : List Label} (first : step u l v) (rest : WorldRun step v ls w) :
      WorldRun step u (l :: ls) w

/-- The labels lead to a world without tasks in which the goal is true. -/
def LiftedProblem.Solves (p : LiftedProblem) (labels : List Label) : Prop :=
  ∃ w, WorldRun p.Step p.initialWorld labels w ∧ w.network.tasks = [] ∧ p.goal.Holds [] w.facts

namespace Ground

/-- The steps by instances whose preconditions are literals. -/
inductive Step (actions : List Schema.Action) (methods : List Schema.Method) : World → Label → World → Prop
  | action {w : World} {position : Nat} {a : Schema.Action} (next : w.network.Next position)
      (task : w.network.tasks[position]? = some a.groundTask) (known : a ∈ actions)
      (applicable : ∀ l ∈ a.precondition.literals, l.Holds w.facts) :
      Step actions methods w (.action a.name a.args)
        ⟨(w.facts \ {f | ⟨false, f⟩ ∈ a.effectLiterals}) ∪ {f | ⟨true, f⟩ ∈ a.effectLiterals},
          w.network.remove position⟩
  | method {w : World} {position : Nat} {t : GroundTask} {m : Schema.Method} (next : w.network.Next position)
      (task : w.network.tasks[position]? = some t) (decomposes : m.groundTask? = some t) (known : m ∈ methods)
      (applicable : ∀ l ∈ m.precondition.literals, l.Holds w.facts) :
      Step actions methods w (.method m.name m.args)
        { w with network := w.network.replace position m.subtasks m.network.Before }

end Ground

end HtnPlanner
