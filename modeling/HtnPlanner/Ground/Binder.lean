import HtnPlanner.FactTable
import HtnPlanner.Inertia
import HtnPlanner.Positions

namespace HtnPlanner

/-- What a literal says of the arguments bound to its slots. -/
inductive Test
  | atom (a : Atom)
  | equal (a b : Arg)
  deriving DecidableEq, Repr, Inhabited

/-- A literal at the top of a precondition. -/
structure Check where
  positive : Bool
  test : Test
  deriving DecidableEq, Repr, Inhabited

def Expr.test? : Expr → Option Test
  | atom a => some (.atom a)
  | equal a b => some (.equal a b)
  | _ => none

def Expr.check? : Expr → Option Check
  | neg e => e.test?.map (⟨false, ·⟩)
  | e => e.test?.map (⟨true, ·⟩)

/-- The value of a test under a partial binding, where it is settled. -/
def Test.value (fixed : Fact → Option Bool) (binding : List (Option Nat)) : Test → Option Bool
  | atom a => (a.args.mapM (Arg.resolve binding)).bind fun args => fixed ⟨a.predicate, args⟩
  | equal a b => do return (← a.resolve binding) == (← b.resolve binding)

def Check.isConsistent (fixed : Fact → Option Bool) (binding : List (Option Nat)) (c : Check) : Bool :=
  (c.test.value fixed binding).all (· == c.positive)

structure Binder where
  /-- The constants of a type, ascending. -/
  domain : Nat → List Nat
  table : Nat → FactTable
  /-- The facts of the predicate that are not true initially are never true. -/
  closed : Nat → Bool
  fixed : Fact → Option Bool

namespace Binder

def isConsistent (b : Binder) (checks : List Check) (binding : List (Option Nat)) : Bool :=
  checks.all (·.isConsistent b.fixed binding)

/-- The constant that a tuple has at all of the positions. -/
def common? (args : List Nat) : List Nat → Option Nat
  | [] => none
  | p :: ps => args[p]?.filter fun c => ps.all (args[·]? == some c)

/-- The constants that a positive check leaves for an unbound slot. A check that does not mention
the slot, or whose facts may come to be true, leaves all. -/
def occurring? (b : Binder) (slot : Nat) (binding : List (Option Nat)) (c : Check) :
    Option (List Nat) :=
  match c with
  | ⟨true, .atom a⟩ =>
    let places := positions (· == .slot slot) a.args
    if places.isEmpty || !b.closed a.predicate then none
    else
      let facts := (b.table a.predicate).matching (a.args.map (Arg.resolve binding))
      some (facts.filterMap (common? · places))
  | _ => none

/-- The constants of the type that every check leaves for an unbound slot, ascending. -/
def candidates (b : Binder) (checks : List Check) (slot type : Nat) (binding : List (Option Nat)) :
    List Nat :=
  let occurring := checks.filterMap (b.occurring? slot binding)
  (b.domain type).filter fun c => occurring.all (·.contains c)

/-- Binds the parameters, given by type and slot, one after the other. A binding that contradicts a
check is given up at once. -/
def extend (b : Binder) (checks : List Check) :
    List (Nat × Nat) → List (Option Nat) → List (List Nat)
  | [], binding => [binding.filterMap id]
  | (type, slot) :: todo, binding =>
    match binding[slot]?.join with
    | some _ => extend b checks todo binding
    | none =>
      (b.candidates checks slot type binding).flatMap fun c =>
        let binding := binding.set slot (some c)
        if b.isConsistent checks binding then extend b checks todo binding else []

/-- The complete bindings that extend a partial one, in lexicographic order. -/
def bindings (b : Binder) (parameters : List Nat) (precondition : Expr)
    (partialBinding : List (Option Nat)) : List (List Nat) :=
  let checks := precondition.conjuncts.filterMap Expr.check?
  if b.isConsistent checks partialBinding then
    b.extend checks parameters.zipIdx partialBinding
  else
    []

end Binder

end HtnPlanner
