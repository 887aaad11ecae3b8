namespace HtnPlanner

structure Fact where
  predicate : Nat
  args : List Nat
  deriving DecidableEq, Repr, Inhabited

/-- A fact that is required, or made, true or false. -/
structure Literal where
  positive : Bool
  fact : Fact
  deriving DecidableEq, Repr, Inhabited

structure GroundTask where
  symbol : Nat
  args : List Nat
  deriving DecidableEq, Repr, Inhabited

end HtnPlanner
