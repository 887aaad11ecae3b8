import HtnPlanner.Encoded.OfGround
import HtnPlanner.Lifted.Naming

namespace HtnPlanner

/-- Names resolved, parameters bound, facts and tasks numbered: the problem as the search takes it. -/
def ground (domain : Option Definition.Domain) (problem : Option Definition.Problem) :
    Except GroundingError EncodedProblem :=
  (LiftedProblem.ofDefinitions domain problem).map fun lifted => .ofGround (.ofLifted lifted)

end HtnPlanner
