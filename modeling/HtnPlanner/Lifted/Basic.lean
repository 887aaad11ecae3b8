import HtnPlanner.Schema.Basic
import HtnPlanner.Symbols.Basic

namespace HtnPlanner

/-- A problem over its symbols, with actions and methods that still have parameters. -/
structure LiftedProblem where
  domainName : String
  problemName : String
  symbols : Symbols
  /-- The facts that are true at first, once each. -/
  init : List Fact
  actions : List Schema.Action
  methods : List Schema.Method
  goal : Expr
  network : Schema.Network
  deriving Repr, Inhabited

end HtnPlanner
