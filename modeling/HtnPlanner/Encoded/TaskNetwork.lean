import HtnPlanner.FinRel

namespace HtnPlanner

/-- Tasks by their indices, with the closed precedence between their positions. -/
structure TaskNetwork where
  tasks : List Nat := []
  order : FinRel := .empty 0
  deriving DecidableEq, Repr, Inhabited

namespace TaskNetwork

def ofPairs (tasks : List Nat) (pairs : List (Nat × Nat)) : TaskNetwork :=
  ⟨tasks, .ofPairs tasks.length pairs⟩

def sequence (tasks : List Nat) : TaskNetwork := ⟨tasks, .chain tasks.length⟩

def isEmpty (n : TaskNetwork) : Bool := n.tasks.isEmpty

def isTotal (n : TaskNetwork) : Bool := n.order.isTotal

def first (n : TaskNetwork) : List Nat := n.order.minimal

def remove (n : TaskNetwork) (position : Nat) : TaskNetwork :=
  ⟨n.tasks.eraseIdx position, n.order.erase position⟩

/-- Puts subtasks, ordered among themselves by `inner`, in the place of a task. -/
def decompose (n : TaskNetwork) (position : Nat) (subtasks : List Nat) (inner : FinRel) :
    TaskNetwork :=
  ⟨n.tasks.eraseIdx position ++ subtasks, n.order.splice position inner⟩

def ofPairs? (tasks : List Nat) (pairs : List (Nat × Nat)) : Option TaskNetwork :=
  (FinRel.ofPairs? tasks.length pairs).map (⟨tasks, ·⟩)

def remove? (n : TaskNetwork) (position : Nat) : Option TaskNetwork :=
  if position < n.tasks.length then some (n.remove position) else none

def decompose? (n : TaskNetwork) (position : Nat) (subtasks : List Nat) (inner : FinRel) :
    Option TaskNetwork :=
  if position < n.tasks.length then some (n.decompose position subtasks inner) else none

end TaskNetwork

end HtnPlanner
