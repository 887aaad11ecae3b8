import HtnPlanner.Proofs.Encoded.Validation
import HtnPlanner.Proofs.Lookup.Naming
import HtnPlanner.Proofs.Lookup.Validation

/-!
From the definitions to the last step of a plan, whatever is looked up is there.
-/

namespace HtnPlanner

namespace Lookup

def ground (domain : Option Definition.Domain) (problem : Option Definition.Problem) :
    Option (Except GroundingError EncodedProblem) := do
  match ← ofDefinitions domain problem with
  | .ok lifted => (ofGround (← ofLifted lifted)).map .ok
  | .error e => some (.error e)

theorem ground_eq (domain : Option Definition.Domain) (problem : Option Definition.Problem) :
    ground domain problem = some (HtnPlanner.ground domain problem) := by
  obtain ⟨hnamed, hlinked⟩ := ofDefinitions_eq domain problem
  rw [ground, HtnPlanner.ground, hnamed, Option.bind_eq_bind, Option.bind_some]
  cases hL : LiftedProblem.ofDefinitions domain problem with
  | error e => rfl
  | ok L =>
      have hwf := LiftedProblem.wellFormed_of_ofDefinitions hL
      have hlegible := GroundProblem.legible_ofLifted hwf
      simp only [ofLifted_eq hwf (hlinked L hL), ofGround_eq (GroundProblem.wellFormed_ofLifted hwf) hlegible,
        Option.bind_eq_bind, Option.bind_some, Option.map_some]
      rfl

end Lookup

theorem legible_of_ground {domain : Option Definition.Domain} {problem : Option Definition.Problem}
    {P : EncodedProblem} (h : ground domain problem = .ok P) : P.Legible := by
  obtain ⟨L, hL, rfl⟩ := exists_lifted_of_ground h
  exact EncodedProblem.legible_ofGround (GroundProblem.wellFormed_ofLifted hL) (GroundProblem.legible_ofLifted hL)

/-- Grounding finds everything that it looks up, whatever the definitions: no condition is read as empty for
want of literals. What it results in can be expanded at every situation that is reached, searched by both
engines, asked for the way to every stored node and for a reason not to search, and take any plan of its
operators, and again nothing is looked up in vain. -/
theorem ground_finds_everything (domain : Option Definition.Domain) (problem : Option Definition.Problem) :
    Lookup.ground domain problem = some (ground domain problem) ∧
    ∀ P, ground domain problem = .ok P →
      (∀ s, P.Reachable s → Lookup.successors P s = some (P.successors s)) ∧
      (∀ (e : Engine) (exceeded : Nat → Option Limit) (fuel : Nat),
        Lookup.search e P exceeded fuel = some (e.search P exceeded fuel)) ∧
      (∀ (e : Engine) s, e.Visits P s → P.Grown s.space) ∧
      (∀ space, P.Grown space → ∀ id < space.nodes.size, space.planTo? id = some (space.planTo id)) ∧
      Lookup.unsolvable P = some P.unsolvable? ∧
      ∀ plan : Plan, (∀ o ∈ plan.steps, P.knows o = true) →
        Lookup.validate P plan = some ((P.validate plan).mapError (·.message P)) := by
  refine ⟨Lookup.ground_eq domain problem, fun P h => ?_⟩
  have hP := legible_of_ground h
  refine ⟨fun s hs => Lookup.successors_eq hP (hP.fits_of_reachable hs), Lookup.search_eq hP,
    fun e s hs => hs.grown, fun space hspace id hid => ?_, Lookup.unsolvable_eq hP,
    fun plan hplan => Lookup.validate_eq hP hplan⟩
  exact hspace.forest.planTo?_eq (Array.getElem?_eq_getElem hid)

theorem ground_finds_everything_lamp : ∃ P, Lookup.ground lampDomain lampProblem = some (.ok P) ∧
    Lookup.successors P P.initial = some (P.successors P.initial) ∧
    Lookup.unsolvable P = some none ∧
    (SearchSpace.new Situation.hash P.initial).planTo? 0 = some {} ∧
    Lookup.validate P lampPlan = some (.ok ()) := by
  obtain ⟨P, hP, hsolvable, hvalid, hknown⟩ : ∃ P, ground lampDomain lampProblem = .ok P ∧
      P.unsolvable? = none ∧ P.validate lampPlan = .ok () ∧ ∀ o ∈ lampPlan.steps, P.knows o = true :=
    exists_ground_of_any (by decide +kernel)
  obtain ⟨hground, hfound⟩ := ground_finds_everything lampDomain lampProblem
  obtain ⟨hsuccessors, -, -, hplan, hunsolvable, hvalidate⟩ := hfound P hP
  have hroot : 0 < (SearchSpace.new Situation.hash P.initial).nodes.size := by
    rw [SearchSpace.new_eq_push]
    exact Nat.zero_lt_one
  refine ⟨P, hP ▸ hground, hsuccessors _ EncodedProblem.reachable_initial, hsolvable ▸ hunsolvable,
    (hplan _ (.new _) 0 hroot).trans ?_, (hvalidate lampPlan hknown).trans (by rw [hvalid]; rfl)⟩
  rw [SearchSpace.new_eq_push]
  rfl

end HtnPlanner
