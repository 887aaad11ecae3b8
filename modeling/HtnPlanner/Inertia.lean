import HtnPlanner.Schema.Basic

namespace HtnPlanner

inductive Inertia
  /-- No action changes it. -/
  | static
  /-- It can only become false. -/
  | positive
  /-- It can only become true. -/
  | negative
  | fluent
  deriving DecidableEq, Repr, Inhabited

namespace Inertia

def ofEffects (asserted retracted : Bool) : Inertia :=
  match asserted, retracted with
  | false, false => static
  | false, true => positive
  | true, false => negative
  | true, true => fluent

/-- The value that a fact never loses, given its value in the initial state. -/
def fixedValue (i : Inertia) (initially : Bool) : Option Bool :=
  match i, initially with
  | static, _ => some initially
  | positive, false => some false
  | negative, true => some true
  | _, _ => none

def isInertial (i : Inertia) : Bool := i != fluent

def name : Inertia → String
  | static => "static"
  | positive => "positive"
  | negative => "negative"
  | fluent => "fluent"

end Inertia

/-- The inertia of every predicate, read off the effects of action schemas. -/
structure PredicateInertia where
  classes : List Inertia
  deriving DecidableEq, Repr, Inhabited

namespace PredicateInertia

def affects (actions : List Schema.Action) (positive : Bool) (predicate : Nat) : Bool :=
  actions.any fun a => (a.effect.signedAtoms true).any fun s => s.1 == positive && s.2.predicate == predicate

def ofActions (predicates : Nat) (actions : List Schema.Action) : PredicateInertia :=
  ⟨(List.range predicates).map fun p => .ofEffects (affects actions true p) (affects actions false p)⟩

def of (i : PredicateInertia) (predicate : Nat) : Inertia := i.classes.getD predicate .static

/-- A fact of this predicate that is not true initially is never true. -/
def isClosed (i : PredicateInertia) (predicate : Nat) : Bool :=
  (i.of predicate).fixedValue false == some false

def inertial (i : PredicateInertia) : List Nat :=
  (List.range i.classes.length).filter fun p => (i.of p).isInertial

def fixedValue (i : PredicateInertia) (init : List Fact) (f : Fact) : Option Bool :=
  (i.of f.predicate).fixedValue (init.contains f)

end PredicateInertia

structure FactInertia where
  asserted : List Fact
  retracted : List Fact
  init : List Fact
  /-- The facts that an action mentions, in order of first mention. -/
  mentioned : List Fact
  deriving DecidableEq, Repr, Inhabited

namespace FactInertia

def factsMentioned (a : Schema.Action) : List Fact :=
  a.effectLiterals.map (·.fact) ++ a.precondition.facts

def effects (actions : List Schema.Action) (positive : Bool) : List Fact :=
  (actions.flatMap fun a => (a.effectLiterals.filter (·.positive == positive)).map (·.fact)).eraseDups

def ofActions (actions : List Schema.Action) (init : List Fact) : FactInertia where
  asserted := effects actions true
  retracted := effects actions false
  init := init
  mentioned := (actions.flatMap factsMentioned).eraseDups

def of (i : FactInertia) (f : Fact) : Inertia :=
  .ofEffects (i.asserted.contains f) (i.retracted.contains f)

def fixedValue (i : FactInertia) (f : Fact) : Option Bool := (i.of f).fixedValue (i.init.contains f)

def inertialFacts (i : FactInertia) : List Fact := i.mentioned.filter fun f => (i.of f).isInertial

def fixedFacts (i : FactInertia) : List Fact := i.mentioned.filter fun f => (i.fixedValue f).isSome

end FactInertia

end HtnPlanner
