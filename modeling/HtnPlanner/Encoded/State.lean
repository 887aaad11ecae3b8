import HtnPlanner.IndexSet

namespace HtnPlanner

/-- Which of the facts with an index below `width` are true. -/
structure State where
  width : Nat
  facts : IndexSet
  deriving DecidableEq, Repr, Inhabited

namespace State

def ofList (width : Nat) (facts : List Nat) : State := ⟨width, .ofList facts⟩

def holds (s : State) (i : Nat) : Bool := s.facts.contains i

def set (s : State) (i : Nat) (value : Bool) : State :=
  { s with facts := if value then s.facts.insert i else s.facts.diff (.ofList [i]) }

def render (s : State) : String := s.facts.render

def ofList? (width : Nat) (facts : List Nat) : Option State :=
  if facts.all (· < width) then some (ofList width facts) else none

def set? (s : State) (i : Nat) (value : Bool) : Option State :=
  if i < s.width then some (s.set i value) else none

@[simp] theorem holds_ofList (width : Nat) (facts : List Nat) (i : Nat) :
    (ofList width facts).holds i = facts.contains i :=
  IndexSet.contains_ofList facts i

@[simp] theorem holds_set (s : State) (i j : Nat) (value : Bool) :
    (s.set i value).holds j = if i = j then value else s.holds j := by
  cases value <;> by_cases h : i = j <;> simp [set, holds, h, eq_comm (a := j)]

end State

structure Condition where
  pos : IndexSet
  neg : IndexSet
  deriving DecidableEq, Repr, Inhabited

namespace Condition

def trivial : Condition := ⟨.empty, .empty⟩

def isEmpty (c : Condition) : Bool := c.pos.isEmpty && c.neg.isEmpty

def holds (c : Condition) (s : State) : Bool := c.pos.subset s.facts && c.neg.disjoint s.facts

theorem holds_iff {c : Condition} {s : State} : c.holds s = true ↔
    (∀ i, c.pos.contains i = true → s.holds i = true) ∧
      ∀ i, c.neg.contains i = true → s.holds i = false := by
  simp [holds, State.holds, IndexSet.subset_iff, IndexSet.disjoint_iff]

end Condition

structure Effect where
  add : IndexSet
  del : IndexSet
  deriving DecidableEq, Repr, Inhabited

namespace Effect

def isEmpty (e : Effect) : Bool := e.add.isEmpty && e.del.isEmpty

/-- A fact that becomes both is true afterwards. -/
def apply (e : Effect) (s : State) : State where
  width := max s.width e.add.bound
  facts := (s.facts.diff e.del).union e.add

@[simp] theorem holds_apply (e : Effect) (s : State) (i : Nat) :
    (e.apply s).holds i = ((s.holds i && !e.del.contains i) || e.add.contains i) := by
  simp [apply, State.holds]

end Effect

structure Goal where
  disjuncts : List Condition
  deriving DecidableEq, Repr, Inhabited

namespace Goal

def trivial : Goal := ⟨[.trivial]⟩

def isFalse (g : Goal) : Bool := g.disjuncts.isEmpty

def holds (g : Goal) (s : State) : Bool := g.disjuncts.any (·.holds s)

end Goal

end HtnPlanner
