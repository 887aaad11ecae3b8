namespace HtnPlanner

inductive Input
  | domain
  | problem
  deriving DecidableEq, Repr

/-- What may be defined more than once, but only in one way. -/
inductive Kind
  | constant
  | predicate
  | task
  | parameter
  deriving DecidableEq, Repr

inductive GroundingError
  | missingInput (input : Input)
  | conflict (kind : Kind) (name : String)
  | unknownType (name : String)
  | unknownConstant (name : String)
  | unknownPredicate (name : String)
  | unknownTask (name : String)
  | unknownVariable (var scope : String)
  | arityMismatch (name : String) (expected found : Nat)
  | invalidOrdering (scope label : String)
  deriving DecidableEq, Repr

inductive Unsolvable
  | ungroundableTask (position : Nat) (task : String)
  | falseGoal
  deriving DecidableEq, Repr

def Input.name : Input → String
  | domain => "domain"
  | problem => "problem"

def Kind.name : Kind → String
  | constant => "constant"
  | predicate => "predicate"
  | task => "task"
  | parameter => "parameter"

def quoted (s : String) : String := "`" ++ s ++ "`"

def GroundingError.message : GroundingError → String
  | missingInput i => "missing input: no " ++ i.name ++ " was provided"
  | conflict k n => "conflicting definitions for " ++ k.name ++ " " ++ quoted n
  | unknownType n => "unknown type " ++ quoted n
  | unknownConstant n => "unknown constant " ++ quoted n
  | unknownPredicate n => "unknown predicate " ++ quoted n
  | unknownTask n => "unknown task " ++ quoted n
  | unknownVariable v s => "variable " ++ quoted ("?" ++ v) ++ " is not a parameter of " ++ quoted s
  | arityMismatch n e f =>
    quoted n ++ " expects " ++ toString e ++ " arguments but was given " ++ toString f
  | invalidOrdering s l =>
    "invalid ordering constraint in " ++ quoted s ++ " on subtask " ++ quoted l

def Unsolvable.message : Unsolvable → String
  | ungroundableTask p t =>
    "task " ++ t ++ " at position " ++ toString p ++ " of the initial task network cannot be grounded"
  | falseGoal => "the goal is statically false"

end HtnPlanner
