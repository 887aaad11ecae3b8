import HtnPlanner.Expr.Simplify
import HtnPlanner.Lifted.Basic
import HtnPlanner.Positions

/-!
Gives every name of a domain and a problem its id. A variable is resolved among the parameters of its
operator, a label among the subtasks of its network.
-/

namespace HtnPlanner

open Definition (TypeRef Typed Term Formula)

/-- Work that declares symbols and may find the definitions at fault. -/
abbrev Naming := StateT Symbols (Except GroundingError)

/-- The parameters of an operator. A variable stands for the slot at its place. -/
structure Scope where
  name : String
  names : List String := []
  types : List Nat := []

namespace Naming

def type (ref : TypeRef) : Naming Nat := fun s => s.resolve ref

def types (typed : List Typed) : Naming (List Nat) := typed.mapM (type ·.type)

def declareTypeNames (typed : List Typed) : Naming Unit :=
  typed.forM fun t => modify fun s => (s.declareType t.value).2

def linkType (t : Typed) : Naming Unit := do
  let sub ← modifyGet (Symbols.declareType t.value)
  t.type.names.forM fun name => do
    let sup ← modifyGet (Symbols.declareType name)
    modify (Symbols.addSupertype sub sup)

/-- All names first, so that the declarations may come in any order. -/
def declareTypes (typed : List Typed) : Naming Unit := do
  declareTypeNames typed
  typed.forM linkType

def declareConstant (t : Typed) : Naming Unit := do
  let type ← type t.type
  let _ ← (fun s => s.declareConstant t.value type : Naming Nat)

def declarePredicate (p : Definition.Predicate) : Naming Unit := do
  let signature ← types p.parameters
  let _ ← (fun s => s.declarePredicate p.name signature : Naming Nat)

def declareTask (name : String) (parameters : List Typed) (primitive : Bool) : Naming Unit := do
  let signature ← types parameters
  let _ ← (fun s => s.declareTask name ⟨signature, primitive⟩ : Naming Nat)

def addParameter (scope : Scope) (t : Typed) : Naming Scope := do
  if t.value ∈ scope.names then
    throw (.conflict .parameter t.value)
  let type ← type t.type
  return { scope with
    names := scope.names ++ [t.value]
    types := scope.types ++ [type] }

def scope (name : String) (parameters : List Typed) : Naming Scope :=
  parameters.foldlM addParameter { name }

end Naming

def knownConstant (s : Symbols) (name : String) : Except GroundingError Nat :=
  match s.constants.id? name with
  | some c => .ok c
  | none => .error (.unknownConstant name)

def checkArity (name : String) (expected found : Nat) : Except GroundingError Unit :=
  if expected = found then .ok () else .error (.arityMismatch name expected found)

/-- The id of a predicate that takes so many arguments. -/
def knownPredicate (s : Symbols) (name : String) (arity : Nat) : Except GroundingError Nat :=
  match s.predicates.id? name with
  | some p => do
    checkArity name ((s.predicates.definition? p).elim 0 (·.length)) arity
    return p
  | none => .error (.unknownPredicate name)

def knownTask (s : Symbols) (name : String) (arity : Nat) : Except GroundingError Nat :=
  match s.tasks.id? name with
  | some t => do
    checkArity name ((s.tasks.definition? t).elim 0 (·.parameters.length)) arity
    return t
  | none => .error (.unknownTask name)

namespace Scope

variable (scope : Scope) (s : Symbols)

def arg : Term → Except GroundingError Arg
  | .name n => (knownConstant s n).map .const
  | .var v => match scope.names.idxOf? v with
    | some i => .ok (.slot i)
    | none => .error (.unknownVariable v scope.name)

def atom (a : Definition.Atom Term) : Except GroundingError Atom := do
  let predicate ← knownPredicate s a.name a.values.length
  return ⟨predicate, ← a.values.mapM (scope.arg s)⟩

def task (a : Definition.Atom Term) : Except GroundingError TaskRef := do
  let symbol ← knownTask s a.name a.values.length
  return ⟨symbol, ← a.values.mapM (scope.arg s)⟩

mutual

def formula : Formula → Except GroundingError Expr
  | .atom a => (scope.atom s a).map .atom
  | .conj fs => (formulas fs).map .conj
  | .disj fs => (formulas fs).map .disj
  | .neg f => (formula f).map .neg
  | .imply f g => do
    let f ← formula f
    return .disj [.neg f, ← formula g]
  | .equal a b => do
    let a ← scope.arg s a
    return .equal a (← scope.arg s b)

def formulas : List Formula → Except GroundingError (List Expr)
  | [] => .ok []
  | f :: fs => do
    let e ← formula f
    return e :: (← formulas fs)

end

def condition (fs : List Formula) : Except GroundingError Expr :=
  (scope.formulas s fs).map fun es => (Expr.conj es).simplify

def effect : Definition.Effect → Except GroundingError Expr
  | .add a => (scope.atom s a).map .atom
  | .delete a => (scope.atom s a).map fun a => .neg (.atom a)

def effects (es : List Definition.Effect) : Except GroundingError Expr :=
  (es.mapM (scope.effect s)).map .conj

/-- The position of the last subtask with the label. -/
def position (subtasks : List Definition.Subtask) (label : String) : Except GroundingError Nat :=
  match (positions (·.label == some label) subtasks).getLast? with
  | some p => .ok p
  | none => .error (.invalidOrdering scope.name label)

def precedence (subtasks : List Definition.Subtask) (p : String × String) :
    Except GroundingError (Nat × Nat) := do
  if p.1 = p.2 then
    throw (.invalidOrdering scope.name p.1)
  let before ← scope.position subtasks p.1
  return (before, ← scope.position subtasks p.2)

def network (n : Definition.Network) : Except GroundingError Schema.Network := do
  let tasks ← n.subtasks.mapM (scope.task s ·.task)
  return ⟨tasks, ← n.ordering.mapM (scope.precedence n.subtasks)⟩

end Scope

namespace Naming

def action (a : Definition.Action) : Naming Schema.Action := do
  let scope ← scope a.name a.parameters
  let s ← get
  let precondition ← scope.condition s a.preconditions
  let effect ← scope.effects s a.effects
  let task ← match s.tasks.id? a.name with
    | some t => pure t
    | none => throw (.unknownTask a.name)
  return { name := a.name, task, parameters := scope.types, precondition, effect }

def method (m : Definition.Method) : Naming Schema.Method := do
  let scope ← scope m.name m.parameters
  let s ← get
  let task ← scope.task s m.task
  let precondition ← scope.condition s m.preconditions
  let network ← scope.network s m.network
  return { name := m.name, parameters := scope.types, task, precondition, network }

end Naming

def initialFact (s : Symbols) (a : Definition.Atom String) : Except GroundingError Fact := do
  let predicate ← knownPredicate s a.name a.values.length
  return ⟨predicate, ← a.values.mapM (knownConstant s)⟩

def initialFacts (s : Symbols) (init : List (Definition.Atom String)) :
    Except GroundingError (List Fact) :=
  (init.mapM (initialFact s)).map List.eraseDups

namespace Naming

/-- Declares everything but the operators, in the order of the parts of a domain. -/
def declare (domain : Definition.Domain) (problem : Definition.Problem) : Naming Unit := do
  declareTypes domain.types
  domain.constants.forM declareConstant
  problem.objects.forM declareConstant
  modify Symbols.close
  domain.predicates.forM declarePredicate
  domain.tasks.forM fun t => declareTask t.name t.parameters false
  domain.actions.forM fun a => declareTask a.name a.parameters true

def problem (domain : Definition.Domain) (problem : Definition.Problem) : Naming LiftedProblem := do
  declare domain problem
  let actions ← domain.actions.mapM action
  let methods ← domain.methods.mapM method
  let symbols ← get
  let init ← initialFacts symbols problem.init
  let scope : Scope := { name := problem.name }
  let goal ← scope.condition symbols problem.goal
  let network ← scope.network symbols problem.htn
  return {
    domainName := domain.name, problemName := problem.name, symbols, init, actions, methods, goal,
    network }

end Naming

def LiftedProblem.ofDefinitions (domain : Option Definition.Domain)
    (problem : Option Definition.Problem) : Except GroundingError LiftedProblem :=
  match domain, problem with
  | none, _ => .error (.missingInput .domain)
  | some _, none => .error (.missingInput .problem)
  | some d, some p => (Naming.problem d p).run' {}

end HtnPlanner
